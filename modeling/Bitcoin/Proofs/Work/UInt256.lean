import Bitcoin.Work.UInt256
import Mathlib.Data.Nat.Size
import Mathlib.Order.Compare
import Mathlib.Tactic.Ring

/-!
# Words of 256 bits as numbers

The operations on words of 256 bits are those on the numbers that the words denote: shifts are the
multiplication with a power of two, as far as 256 bits go (`UInt256.toNat_shiftLeft`), and the
division by one (`UInt256.toNat_shiftRight`), and the order is that of the numbers
(`UInt256.order_eq`).
-/

namespace Bitcoin.UInt256

variable {x y : UInt256} {w v k : UInt64}

theorem toNat_eq (x : UInt256) :
  x.toNat = x.w₀.toNat
    + 2 ^ 64 * (x.w₁.toNat + 2 ^ 64 * (x.w₂.toNat + 2 ^ 64 * x.w₃.toNat))
  := rfl

theorem toNat_lt (x : UInt256) :
  x.toNat < 2 ^ 256
  := by
  have h₀ := x.w₀.toNat_lt
  have h₁ := x.w₁.toNat_lt
  have h₂ := x.w₂.toNat_lt
  have h₃ := x.w₃.toNat_lt
  rw [toNat_eq]
  omega

/-- Words are equal if they denote the same number. -/
theorem toNat_inj :
  x.toNat = y.toNat ↔ x = y
  := by
  constructor
  · intro h
    have h₀ := x.w₀.toNat_lt
    have h₁ := x.w₁.toNat_lt
    have h₂ := x.w₂.toNat_lt
    have k₀ := y.w₀.toNat_lt
    have k₁ := y.w₁.toNat_lt
    have k₂ := y.w₂.toNat_lt
    rw [toNat_eq, toNat_eq] at h
    cases x
    cases y
    rw [mk.injEq]
    simp only [← UInt64.toNat_inj]
    dsimp only at *
    omega
  · rintro rfl
    rfl

/-- Each number of 256 bits is that of a word. -/
theorem exists_toNat_eq {n : Nat} (h : n < 2 ^ 256) :
  ∃ x : UInt256, x.toNat = n
  := by
  use ⟨UInt64.ofNat n, UInt64.ofNat (n / 2 ^ 64), UInt64.ofNat (n / 2 ^ 128),
    UInt64.ofNat (n / 2 ^ 192)⟩
  rw [toNat_eq]
  dsimp only
  rw [UInt64.toNat_ofNat', UInt64.toNat_ofNat', UInt64.toNat_ofNat', UInt64.toNat_ofNat']
  omega

theorem toNat_ofUInt64 (n : UInt64) :
  (ofUInt64 n).toNat = n.toNat
  := by
  rw [toNat_eq]
  rfl

theorem toNat_ofUInt32 (n : UInt32) :
  (ofUInt32 n).toNat = n.toNat
  := (toNat_ofUInt64 n.toUInt64).trans (UInt32.toNat_toUInt64 n)

/-- The lowest word has the lowest bits. -/
theorem toNat_w₀ (x : UInt256) :
  x.w₀.toNat = x.toNat % 2 ^ 64
  := by
  have h₀ := x.w₀.toNat_lt
  rw [toNat_eq]
  omega

/-! ### Shifts by fewer bits than a word has -/

section Bits

variable (hk : k.toNat < 64)

include hk

theorem toNat_sub_shift :
  (64 - k).toNat = 64 - k.toNat
  := UInt64.toNat_sub_of_le 64 k (UInt64.le_iff_toNat_le.mpr (Nat.le_of_lt hk))

theorem two_pow_mul_two_pow_sub :
  2 ^ k.toNat * 2 ^ (64 - k.toNat) = 2 ^ 64
  := by
  rw [← pow_add, Nat.add_sub_cancel' (Nat.le_of_lt hk)]

theorem toNat_shiftLeft_word (w : UInt64) :
  (w <<< k).toNat = w.toNat % 2 ^ (64 - k.toNat) * 2 ^ k.toNat
  := by
  rw [UInt64.toNat_shiftLeft, Nat.mod_eq_of_lt hk, Nat.shiftLeft_eq,
    ← two_pow_mul_two_pow_sub hk, Nat.mul_comm (2 ^ k.toNat) (2 ^ (64 - k.toNat)),
    Nat.mul_mod_mul_right]

theorem toNat_shiftRight_word (w : UInt64) :
  (w >>> k).toNat = w.toNat / 2 ^ k.toNat
  := by
  rw [UInt64.toNat_shiftRight, Nat.mod_eq_of_lt hk, Nat.shiftRight_eq_div_pow]

/-- The bits that leave a word to the left. -/
theorem toNat_carryLeft (w : UInt64) :
  (carryLeft w k).toNat = w.toNat / 2 ^ (64 - k.toNat)
  := by
  rw [carryLeft]
  split
  · next h =>
    rw [h]
    exact (Nat.div_eq_of_lt w.toNat_lt).symm
  · next h =>
    have hpos : k.toNat ≠ 0 := fun h' => h (UInt64.toNat_inj.mp h')
    have hlt : (64 - k).toNat < 64 := by
      rw [toNat_sub_shift hk]
      omega
    rw [toNat_shiftRight_word hlt, toNat_sub_shift hk]

/-- The bits that leave a word to the right. -/
theorem toNat_carryRight (w : UInt64) :
  (carryRight w k).toNat = w.toNat % 2 ^ k.toNat * 2 ^ (64 - k.toNat)
  := by
  rw [carryRight]
  split
  · next h =>
    rw [h, UInt64.toNat_zero, pow_zero, Nat.mod_one, Nat.zero_mul]
  · next h =>
    have hpos : k.toNat ≠ 0 := fun h' => h (UInt64.toNat_inj.mp h')
    have hlt : (64 - k).toNat < 64 := by
      rw [toNat_sub_shift hk]
      omega
    have hsub : 64 - (64 - k.toNat) = k.toNat := by omega
    rw [toNat_shiftLeft_word hlt, toNat_sub_shift hk, hsub]

/-- What a word hands on stands below the bits that are moved to the left. -/
theorem toNat_shiftLeft_or (w v : UInt64) :
  (w <<< k ||| carryLeft v k).toNat
    = w.toNat % 2 ^ (64 - k.toNat) * 2 ^ k.toNat + v.toNat / 2 ^ (64 - k.toNat)
  := by
  have hcarry : v.toNat / 2 ^ (64 - k.toNat) < 2 ^ k.toNat := by
    apply Nat.div_lt_of_lt_mul
    rw [Nat.mul_comm, two_pow_mul_two_pow_sub hk]
    exact v.toNat_lt
  rw [UInt64.toNat_or, toNat_shiftLeft_word hk, toNat_carryLeft hk, Nat.mul_comm _ (2 ^ k.toNat),
    Nat.two_pow_add_eq_or_of_lt hcarry]

/-- What a word hands on stands above the bits that are moved to the right. -/
theorem toNat_shiftRight_or (w v : UInt64) :
  (w >>> k ||| carryRight v k).toNat
    = w.toNat / 2 ^ k.toNat + v.toNat % 2 ^ k.toNat * 2 ^ (64 - k.toNat)
  := by
  have hlow : w.toNat / 2 ^ k.toNat < 2 ^ (64 - k.toNat) := by
    apply Nat.div_lt_of_lt_mul
    rw [two_pow_mul_two_pow_sub hk]
    exact w.toNat_lt
  rw [UInt64.toNat_or, toNat_shiftRight_word hk, toNat_carryRight hk, Nat.or_comm,
    Nat.mul_comm _ (2 ^ (64 - k.toNat)), ← Nat.two_pow_add_eq_or_of_lt hlow, Nat.add_comm]

/-- A shift by few bits to the left multiplies, and drops what has no room. -/
theorem toNat_shiftLeftBits (x : UInt256) :
  (x.shiftLeftBits k).toNat = x.toNat * 2 ^ k.toNat % 2 ^ 256
  := by
  -- Each word is split where its upper bits go over to the next one.
  have hsum : x.toNat * 2 ^ k.toNat
      = (x.shiftLeftBits k).toNat + 2 ^ 256 * (x.w₃.toNat / 2 ^ (64 - k.toNat)) := by
    have hborder := two_pow_mul_two_pow_sub hk
    have hwhole : 2 ^ 256 = (2 ^ k.toNat * 2 ^ (64 - k.toNat)) ^ 4 := by
      rw [hborder, ← pow_mul]
    have hsplit : ∀ w : UInt64, w.toNat
        = 2 ^ (64 - k.toNat) * (w.toNat / 2 ^ (64 - k.toNat)) + w.toNat % 2 ^ (64 - k.toNat) :=
      fun w => (Nat.div_add_mod _ _).symm
    rw [toNat_eq, toNat_eq, shiftLeftBits]
    dsimp only
    rw [toNat_shiftLeft_or hk, toNat_shiftLeft_or hk, toNat_shiftLeft_or hk,
      toNat_shiftLeft_word hk, hwhole, ← hborder]
    conv_lhs => rw [hsplit x.w₀, hsplit x.w₁, hsplit x.w₂, hsplit x.w₃]
    ring
  rw [hsum, Nat.add_mul_mod_self_left, Nat.mod_eq_of_lt (toNat_lt _)]

/-- A shift by few bits to the right divides. -/
theorem toNat_shiftRightBits (x : UInt256) :
  (x.shiftRightBits k).toNat = x.toNat / 2 ^ k.toNat
  := by
  have hsum : x.toNat = x.w₀.toNat % 2 ^ k.toNat + 2 ^ k.toNat * (x.shiftRightBits k).toNat := by
    have hborder := two_pow_mul_two_pow_sub hk
    have hsplit : ∀ w : UInt64, w.toNat
        = 2 ^ k.toNat * (w.toNat / 2 ^ k.toNat) + w.toNat % 2 ^ k.toNat :=
      fun w => (Nat.div_add_mod _ _).symm
    rw [toNat_eq, toNat_eq, shiftRightBits]
    dsimp only
    rw [toNat_shiftRight_or hk, toNat_shiftRight_or hk, toNat_shiftRight_or hk,
      toNat_shiftRight_word hk, ← hborder]
    conv_lhs => rw [hsplit x.w₀, hsplit x.w₁, hsplit x.w₂, hsplit x.w₃]
    ring
  rw [hsum, Nat.add_mul_div_left _ _ (Nat.two_pow_pos _),
    Nat.div_eq_of_lt (Nat.mod_lt _ (Nat.two_pow_pos _)), Nat.zero_add]

end Bits

/-! ### Shifts by whole words -/

/-- A shift by whole words to the left multiplies, and drops what has no room. -/
theorem toNat_shiftLeftWords (x : UInt256) (n : Nat) :
  (x.shiftLeftWords n).toNat = x.toNat * 2 ^ (64 * n) % 2 ^ 256
  := by
  have h₀ := x.w₀.toNat_lt
  have h₁ := x.w₁.toNat_lt
  have h₂ := x.w₂.toNat_lt
  have h₃ := x.w₃.toNat_lt
  match n with
  | 0 | 1 | 2 | 3 =>
    rw [toNat_eq, toNat_eq, shiftLeftWords]
    simp only [UInt64.toNat_zero, Nat.reduceMul]
    omega
  | n + 4 =>
    have hmultiple : x.toNat * 2 ^ (64 * (n + 4)) = 2 ^ 256 * (x.toNat * 2 ^ (64 * n)) := by ring
    rw [hmultiple, Nat.mul_mod_right]
    rfl

/-- A shift by whole words to the right divides. -/
theorem toNat_shiftRightWords (x : UInt256) (n : Nat) :
  (x.shiftRightWords n).toNat = x.toNat / 2 ^ (64 * n)
  := by
  have h₀ := x.w₀.toNat_lt
  have h₁ := x.w₁.toNat_lt
  have h₂ := x.w₂.toNat_lt
  match n with
  | 0 | 1 | 2 | 3 =>
    rw [toNat_eq, toNat_eq, shiftRightWords]
    simp only [UInt64.toNat_zero, Nat.reduceMul]
    omega
  | n + 4 =>
    have hle : 2 ^ 256 ≤ 2 ^ (64 * (n + 4)) := Nat.pow_le_pow_right (by decide) (by omega)
    rw [Nat.div_eq_of_lt (Nat.lt_of_lt_of_le x.toNat_lt hle)]
    rfl

/-! ### Shifts -/

theorem toNat_ofNat_mod (n : Nat) :
  (UInt64.ofNat (n % 64)).toNat = n % 64
  := by
  rw [UInt64.toNat_ofNat']
  omega

/-- A shift to the left multiplies by a power of two, and what does not fit is lost. -/
theorem toNat_shiftLeft (x : UInt256) (n : Nat) :
  (x.shiftLeft n).toNat = x.toNat * 2 ^ n % 2 ^ 256
  := by
  have hbits : (UInt64.ofNat (n % 64)).toNat < 64 := by
    rw [toNat_ofNat_mod]
    exact Nat.mod_lt n (by decide)
  rw [shiftLeft, toNat_shiftLeftBits hbits, toNat_ofNat_mod, toNat_shiftLeftWords,
    Nat.mod_mul_mod, Nat.mul_assoc, ← pow_add, Nat.div_add_mod]

/-- A shift to the right divides by a power of two. -/
theorem toNat_shiftRight (x : UInt256) (n : Nat) :
  (x.shiftRight n).toNat = x.toNat / 2 ^ n
  := by
  have hbits : (UInt64.ofNat (n % 64)).toNat < 64 := by
    rw [toNat_ofNat_mod]
    exact Nat.mod_lt n (by decide)
  rw [shiftRight, toNat_shiftRightBits hbits, toNat_ofNat_mod, toNat_shiftRightWords,
    Nat.div_div_eq_div_mul, ← pow_add, Nat.div_add_mod]

/-! ### The number of bits -/

theorem log2_add_one {n : Nat} (hn : n ≠ 0) :
  n.log2 + 1 = n.size
  := by
  apply eq_of_forall_ge_iff
  intro k
  rw [Nat.size_le, Nat.succ_le_iff, Nat.log2_lt hn]

theorem bits64_eq (w : UInt64) :
  bits64 w = w.toNat.size
  := by
  rw [bits64]
  split
  · next h =>
    rw [h]
    rfl
  · next h =>
    exact log2_add_one fun h' => h (UInt64.toNat_inj.mp h')

/-- The highest bit is in the higher word, unless that is zero. -/
theorem size_add_mul {n low high : Nat} (hlow : low < 2 ^ n) (hhigh : high ≠ 0) :
  (low + 2 ^ n * high).size = n + high.size
  := by
  have hpos := Nat.size_pos.mpr (Nat.pos_of_ne_zero hhigh)
  apply Nat.le_antisymm
  · rw [Nat.size_le, pow_add]
    have hscaled := Nat.mul_le_mul_left (2 ^ n) (Nat.succ_le_of_lt high.lt_size_self)
    rw [Nat.mul_succ] at hscaled
    omega
  · have hhighest : 2 ^ (high.size - 1) ≤ high := Nat.lt_size.mp (by omega)
    have hscaled := Nat.mul_le_mul_left (2 ^ n) hhighest
    rw [← pow_add] at hscaled
    have hlt := Nat.lt_size.mpr (Nat.le_trans hscaled (Nat.le_add_left _ low))
    omega

/-- A word above some bits has the highest bit, unless it is zero. -/
theorem size_below_word {n low : Nat} (hlow : low < 2 ^ n) (w : UInt64) :
  (if w ≠ 0 then n + bits64 w else low.size) = (low + 2 ^ n * w.toNat).size
  := by
  split
  · next hw =>
    rw [bits64_eq, size_add_mul hlow fun h => hw (UInt64.toNat_inj.mp h)]
  · next hw =>
    rw [Decidable.not_not.mp hw, UInt64.toNat_zero, Nat.mul_zero, Nat.add_zero]

/-- The number of bits is the size of the number. -/
theorem bits_eq (x : UInt256) :
  x.bits = x.toNat.size
  := by
  have h₀ := x.w₀.toNat_lt
  have h₁ := x.w₁.toNat_lt
  have h₂ := x.w₂.toNat_lt
  rw [bits, bits64_eq x.w₀, size_below_word h₀, size_below_word (n := 128) (by omega),
    size_below_word (n := 192) (by omega), toNat_eq]
  congr 1
  omega

/-! ### The order -/

/-- The higher digits decide, and the lower ones if those are equal. -/
theorem compare_add_mul {n low low' high high' : Nat} (hlow : low < n) (hlow' : low' < n) :
  (compare high high').then (compare low low') = compare (low + n * high) (low' + n * high')
  := by
  rcases Nat.lt_trichotomy high high' with h | rfl | h
  · have hscaled := Nat.mul_le_mul_left n (Nat.succ_le_of_lt h)
    rw [Nat.mul_succ] at hscaled
    have hlt : low + n * high < low' + n * high' := by omega
    rw [Nat.compare_eq_lt.mpr h, Nat.compare_eq_lt.mpr hlt]
    rfl
  · rw [Nat.compare_eq_eq.mpr rfl, Nat.compare_eq_ite_lt, Nat.compare_eq_ite_lt,
      Ordering.eq_then]
    simp only [Nat.add_lt_add_iff_right]
  · have hscaled := Nat.mul_le_mul_left n (Nat.succ_le_of_lt h)
    rw [Nat.mul_succ] at hscaled
    have hgt : low' + n * high' < low + n * high := by omega
    rw [Nat.compare_eq_gt.mpr h, Nat.compare_eq_gt.mpr hgt]
    rfl

/-- The order of the words from the highest one on is that of the numbers. -/
theorem order_eq (x y : UInt256) :
  x.order y = compare x.toNat y.toNat
  := by
  rw [order, toNat_eq, toNat_eq, UInt64.compare_eq_toNat_compare_toNat,
    UInt64.compare_eq_toNat_compare_toNat, UInt64.compare_eq_toNat_compare_toNat,
    UInt64.compare_eq_toNat_compare_toNat, ← Ordering.then_assoc, ← Ordering.then_assoc]
  rw [← compare_add_mul x.w₀.toNat_lt y.w₀.toNat_lt, ← compare_add_mul x.w₁.toNat_lt y.w₁.toNat_lt,
    ← compare_add_mul x.w₂.toNat_lt y.w₂.toNat_lt]

/-- The order of words is that of their numbers. -/
theorem order_ne_gt_iff :
  x.order y ≠ .gt ↔ x.toNat ≤ y.toNat
  := by
  rw [order_eq, Nat.compare_ne_gt]

/-- A word is at most another one if the order does not put it behind that one. -/
instance : PartialOrder UInt256 where
  le x y := x.order y ≠ .gt
  le_refl _ := order_ne_gt_iff.mpr le_rfl
  le_trans _ _ _ h h' :=
    order_ne_gt_iff.mpr (le_trans (order_ne_gt_iff.mp h) (order_ne_gt_iff.mp h'))
  le_antisymm _ _ h h' :=
    toNat_inj.mp (le_antisymm (order_ne_gt_iff.mp h) (order_ne_gt_iff.mp h'))

instance : DecidableLE UInt256 :=
  fun x y => inferInstanceAs (Decidable (x.order y ≠ .gt))

theorem le_iff_toNat_le :
  x ≤ y ↔ x.toNat ≤ y.toNat
  := order_ne_gt_iff

end Bitcoin.UInt256
