import Bitcoin.Work.Target
import Bitcoin.Proofs.Work.UInt256
import Mathlib.Data.Nat.Bitwise
import Mathlib.Order.Bounds.Basic

/-!
# Compact targets as rounded targets

A compact form denotes three bytes, moved to the place that its size says. The size that `compact`
chooses for a target is the least one with which the three bytes leave the sign clear
(`Target.exists_toNat_compact`), and so what `ofCompact` reads from a compact form is the greatest
target in the format that does not exceed the one it was made from
(`Target.ofCompact_compact_greatest`).
-/

namespace Bitcoin.Target

/-! ### Bytes moved up and down -/

/-- A number, moved up by some bytes and then down by some, where its lowest bytes are lost. -/
def move (n up down : Nat) : Nat :=
  n * 256 ^ up / 256 ^ down

variable {n m v up down size size' : Nat}

theorem pow_size_pos (size : Nat) :
  0 < 256 ^ size
  := Nat.pow_pos (by decide)

theorem two_pow_eight_mul (size : Nat) :
  2 ^ (8 * size) = 256 ^ size
  := by
  rw [pow_mul]
  rfl

/-- Moving a number rounds it down. -/
theorem le_move_iff :
  v ≤ move n up down ↔ v * 256 ^ down ≤ n * 256 ^ up
  := Nat.le_div_iff_mul_le (pow_size_pos down)

theorem move_of_le (h : up ≤ down) :
  move n up down = n / 256 ^ (down - up)
  := by
  have hsplit : 256 ^ down = 256 ^ (down - up) * 256 ^ up := by
    rw [← pow_add, Nat.sub_add_cancel h]
  rw [move, hsplit, Nat.mul_div_mul_right _ _ (pow_size_pos up)]

theorem move_of_ge (h : down ≤ up) :
  move n up down = n * 256 ^ (up - down)
  := by
  have hsplit : 256 ^ up = 256 ^ (up - down) * 256 ^ down := by
    rw [← pow_add, Nat.sub_add_cancel h]
  rw [move, hsplit, ← Nat.mul_assoc, Nat.mul_div_cancel _ (pow_size_pos down)]

/-- One byte at a time may be moved out. -/
theorem move_succ (n up down : Nat) :
  move n up (down + 1) = move n up down / 2 ^ 8
  := by
  rw [move, move, Nat.div_div_eq_div_mul]
  rfl

/-- Moving up first loses nothing. -/
theorem move_move_of_ge (h : down ≤ up) :
  move (move n up down) down up = n
  := by
  rw [move_of_ge h, move_of_le h, Nat.mul_div_cancel _ (pow_size_pos _)]

/-- Moving back loses nothing. -/
theorem move_move_mul (n up down : Nat) :
  move (move n up down) down up * 256 ^ up = move n up down * 256 ^ down
  := by
  rcases Nat.le_total down up with h | h
  · rw [move_move_of_ge h, move_of_ge h, Nat.mul_assoc, ← pow_add, Nat.sub_add_cancel h]
  · rw [move_of_ge h, Nat.mul_assoc, ← pow_add, Nat.sub_add_cancel h]

/-- What was rounded once is not rounded any further. -/
theorem move_move_move (n up down : Nat) :
  move (move (move n up down) down up) up down = move n up down
  := by
  rw [move, move_move_mul, Nat.mul_div_cancel _ (pow_size_pos down)]

theorem move_move_le (n up down : Nat) :
  move (move n up down) down up ≤ n
  := by
  apply Nat.le_of_mul_le_mul_right _ (pow_size_pos up)
  rw [move_move_mul]
  exact le_move_iff.mp le_rfl

/-! ### The size of a number -/

/-- A size is that of a number if it is the least one whose three bytes leave the sign clear. -/
structure IsSize (n size : Nat) : Prop where
  fits : n * 256 ^ 3 < 2 ^ 23 * 256 ^ size
  least : ∀ lesser, lesser < size → 2 ^ 23 * 256 ^ lesser ≤ n * 256 ^ 3

namespace IsSize

/-- The mantissa of a number leaves room for the sign. -/
theorem mantissa_lt (h : IsSize n size) :
  move n 3 size < 2 ^ 23
  := by
  apply Nat.div_lt_of_lt_mul
  rw [Nat.mul_comm (256 ^ size)]
  exact h.fits

/-- A number has one size. -/
theorem unique (h : IsSize n size) (h' : IsSize n size') :
  size = size'
  := by
  apply Nat.le_antisymm
  · exact Nat.le_of_not_lt fun hlt => absurd h'.fits (Nat.not_lt.mpr (h.least _ hlt))
  · exact Nat.le_of_not_lt fun hlt => absurd h.fits (Nat.not_lt.mpr (h'.least _ hlt))

/-- Three bytes of a lesser size denote less than those of the size of a number. -/
theorem pow_le_mantissa (h : IsSize n size) (hlt : size' < size) :
  2 ^ 23 * 256 ^ size' ≤ move n 3 size * 256 ^ size
  := by
  obtain ⟨k, rfl⟩ : ∃ k, size = k + 1 := ⟨size - 1, by omega⟩
  have hscaled : 2 ^ 23 * 256 ^ k = 2 ^ 15 * 256 ^ (k + 1) := by
    rw [pow_succ]
    omega
  have hmantissa : 2 ^ 15 ≤ move n 3 (k + 1) := by
    rw [le_move_iff, ← hscaled]
    exact h.least k (Nat.lt_succ_self k)
  calc 2 ^ 23 * 256 ^ size'
      ≤ 2 ^ 23 * 256 ^ k :=
        Nat.mul_le_mul_left _ (Nat.pow_le_pow_right (by decide) (Nat.le_of_lt_succ hlt))
    _ = 2 ^ 15 * 256 ^ (k + 1) := hscaled
    _ ≤ move n 3 (k + 1) * 256 ^ (k + 1) := Nat.mul_le_mul_right _ hmantissa

/-- No number of three bytes at any size is between a number and its own three bytes. -/
theorem le_move_move (h : IsSize n size) (hm : m < 2 ^ 23) (hle : move m size' 3 ≤ n) :
  move m size' 3 ≤ move (move n 3 size) size 3
  := by
  rcases Nat.lt_or_ge size' size with hlt | hge
  · rw [le_move_iff]
    calc move m size' 3 * 256 ^ 3
        ≤ m * 256 ^ size' := le_move_iff.mp le_rfl
      _ ≤ 2 ^ 23 * 256 ^ size' := Nat.mul_le_mul_right _ (Nat.le_of_lt hm)
      _ ≤ move n 3 size * 256 ^ size := h.pow_le_mantissa hlt
  · rcases Nat.le_total size 3 with hsmall | hlarge
    · rw [move_move_of_ge hsmall]
      exact hle
    · -- The greater size only moves the bytes of the lesser one further up.
      have hmultiple : m * 256 ^ size' = m * 256 ^ (size' - size) * 256 ^ size := by
        rw [Nat.mul_assoc, ← pow_add, Nat.sub_add_cancel hge]
      have hshift : move m size' 3 = move (m * 256 ^ (size' - size)) size 3 := by
        rw [move, move, hmultiple]
      have hscaled : m * 256 ^ (size' - size) ≤ move n 3 size := by
        rw [hshift, move_of_ge hlarge] at hle
        rw [le_move_iff]
        have hup := Nat.mul_le_mul_right (256 ^ 3) hle
        rw [Nat.mul_assoc, ← pow_add, Nat.sub_add_cancel hlarge] at hup
        exact hup
      rw [hshift, move_of_ge hlarge, move_of_ge hlarge]
      exact Nat.mul_le_mul_right _ hscaled

/-- What three bytes denote has the size of the number that they were taken from. -/
theorem move_move (h : IsSize n size) :
  IsSize (move (move n 3 size) size 3) size
  := by
  constructor
  · rw [move_move_mul]
    exact Nat.mul_lt_mul_of_pos_right h.mantissa_lt (pow_size_pos size)
  · intro lesser hlt
    rw [move_move_mul]
    exact h.pow_le_mantissa hlt

end IsSize

/-- The bytes that a number fills are its size, or the sign needs another one. -/
theorem isSize_bytes (hn : n < 256 ^ size) (hleast : size ≠ 0 → 256 ^ size ≤ n * 256) :
  IsSize n (if 2 ^ 23 ≤ move n 3 size then size + 1 else size)
  := by
  split
  · next hsign =>
    rw [le_move_iff] at hsign
    constructor
    · rw [pow_succ]
      omega
    · intro lesser hlt
      have hscaled := Nat.mul_le_mul_left (2 ^ 23)
        (Nat.pow_le_pow_right (by decide : 0 < 256) (Nat.le_of_lt_succ hlt))
      omega
  · next hsign =>
    rw [le_move_iff] at hsign
    constructor
    · exact Nat.lt_of_not_le hsign
    · intro lesser hlt
      have hscaled := Nat.mul_le_mul_left (2 ^ 16) (Nat.pow_le_pow_right (by decide : 0 < 256) hlt)
      have hbytes := hleast (by omega)
      rw [pow_succ] at hscaled
      omega

/-! ### The fields of a compact form -/

section Fields

variable {bits : UInt32}

theorem toNat_exponent (bits : UInt32) :
  (bits >>> 24).toNat = bits.toNat / 2 ^ 24
  := by
  rw [UInt32.toNat_shiftRight, Nat.shiftRight_eq_div_pow]
  rfl

theorem toNat_mantissa (bits : UInt32) :
  (bits &&& 0x007fffff).toNat = bits.toNat % 2 ^ 23
  := by
  rw [UInt32.toNat_and, ← Nat.and_two_pow_sub_one_eq_mod]
  rfl

/-- The sign is the highest bit of the mantissa's bytes. -/
theorem and_sign_ne_zero_iff :
  bits &&& 0x00800000 ≠ 0 ↔ 2 ^ 23 ≤ bits.toNat % 2 ^ 24
  := by
  have hmask : (bits &&& 0x00800000).toNat = (bits.toNat.testBit 23).toNat * 2 ^ 23 := by
    rw [UInt32.toNat_and, ← Nat.and_two_pow]
    rfl
  have hbit : bits.toNat.testBit 23 = true ↔ 2 ^ 23 ≤ bits.toNat % 2 ^ 24 := by
    rw [Nat.testBit_eq_decide_div_mod_eq, decide_eq_true_eq]
    omega
  rw [Ne, ← UInt32.toNat_inj, hmask, ← hbit]
  cases bits.toNat.testBit 23 <;> decide

/-- A size stands above three bytes. -/
theorem toNat_or_size (hbits : bits.toNat < 2 ^ 24) (hsize : size < 2 ^ 8) :
  (bits ||| UInt32.ofNat size <<< 24).toNat = 2 ^ 24 * size + bits.toNat
  := by
  have hword : (UInt32.ofNat size <<< 24).toNat = 2 ^ 24 * size := by
    rw [UInt32.toNat_shiftLeft, UInt32.toNat_ofNat', Nat.shiftLeft_eq]
    change size % 2 ^ 32 * 2 ^ 24 % 2 ^ 32 = _
    omega
  rw [UInt32.toNat_or, hword, Nat.or_comm, ← Nat.two_pow_add_eq_or_of_lt hbits]

end Fields

/-! ### Reading a compact form -/

theorem toNat_ofUInt32_shiftRight {mantissa : UInt32} (h : size ≤ 3) :
  (UInt256.ofUInt32 (mantissa >>> UInt32.ofNat (8 * (3 - size)))).toNat
    = move mantissa.toNat size 3
  := by
  have hamount : (UInt32.ofNat (8 * (3 - size))).toNat % 32 = 8 * (3 - size) := by
    rw [UInt32.toNat_ofNat']
    omega
  rw [UInt256.toNat_ofUInt32, UInt32.toNat_shiftRight, hamount, Nat.shiftRight_eq_div_pow,
    two_pow_eight_mul, move_of_le h]

/-- The bits of a number that is moved up are those of the number and those below it. -/
theorem add_log2_le_iff (hn : n ≠ 0) (k : Nat) :
  k + (n.log2 + 1) ≤ 256 ↔ n * 2 ^ k < 2 ^ 256
  := by
  rw [UInt256.log2_add_one hn, ← Nat.size_le, ← Nat.shiftLeft_eq, Nat.size_shiftLeft hn,
    Nat.add_comm]

/-- A compact form is that of a target if its sign is clear, or there is nothing that it is the sign
of, and if the number that it denotes has 256 bits. -/
theorem ofCompact_eq_ok_iff (bits : UInt32) (target : UInt256) :
  ofCompact bits = .ok target
    ↔ (2 ^ 23 ≤ bits.toNat % 2 ^ 24 → bits.toNat % 2 ^ 23 = 0)
      ∧ target.toNat = move (bits.toNat % 2 ^ 23) (bits.toNat / 2 ^ 24) 3
  := by
  rw [ofCompact, toNat_exponent, ← toNat_mantissa]
  dsimp only
  generalize bits.toNat / 2 ^ 24 = size
  generalize hmantissa : bits &&& 0x007fffff = mantissa
  split
  · next hzero =>
    have hmove : move (0 : UInt32).toNat size 3 = UInt256.zero.toNat := by
      rw [UInt32.toNat_zero, move, Nat.zero_mul]
      rfl
    rw [hzero, hmove, Except.ok.injEq, UInt256.toNat_inj, eq_comm, iff_and_self]
    exact fun _ _ => rfl
  · next hzero =>
    have hne : mantissa.toNat ≠ 0 := fun h => hzero (UInt32.toNat_inj.mp h)
    rw [← and_sign_ne_zero_iff]
    split
    · next hsign =>
      exact ⟨fun h => (nomatch h), fun h => absurd (h.1 hsign) hne⟩
    · next hsign =>
      rw [and_iff_right (fun h => absurd h hsign)]
      split
      · next hsmall =>
        rw [← toNat_ofUInt32_shiftRight hsmall, Except.ok.injEq, UInt256.toNat_inj, eq_comm]
      · next hlarge =>
        have hmove := move_of_ge (Nat.le_of_not_le hlarge) (n := mantissa.toNat)
        rw [← two_pow_eight_mul] at hmove
        split
        · next hover =>
          rw [gt_iff_lt, ← Nat.not_le, add_log2_le_iff hne, ← hmove] at hover
          exact ⟨fun h => (nomatch h), fun h => absurd (h ▸ target.toNat_lt) hover⟩
        · next hfits =>
          rw [gt_iff_lt, Nat.not_lt, add_log2_le_iff hne] at hfits
          rw [Except.ok.injEq, ← UInt256.toNat_inj, UInt256.toNat_shiftLeft,
            UInt256.toNat_ofUInt32, Nat.mod_eq_of_lt hfits, ← hmove, eq_comm]

/-! ### Writing a compact form -/

/-- A number has as many bytes as are needed for its bits. -/
theorem lt_bytes (n : Nat) :
  n < 256 ^ ((n.size + 7) / 8)
  := by
  rw [← two_pow_eight_mul, ← Nat.size_le]
  omega

theorem bytes_le (h : (n.size + 7) / 8 ≠ 0) :
  256 ^ ((n.size + 7) / 8) ≤ n * 256
  := by
  have hhighest : 2 ^ (n.size - 1) ≤ n := Nat.lt_size.mp (by omega)
  calc 256 ^ ((n.size + 7) / 8)
      = 2 ^ (8 * ((n.size + 7) / 8)) := (two_pow_eight_mul _).symm
    _ ≤ 2 ^ (n.size - 1 + 8) := Nat.pow_le_pow_right (by decide) (by omega)
    _ = 2 ^ (n.size - 1) * 256 := pow_add 2 _ 8
    _ ≤ n * 256 := Nat.mul_le_mul_right 256 hhighest

/-- The three highest bytes of the bytes that a number fills. -/
theorem move_lt (hn : n < 256 ^ size) :
  move n 3 size < 2 ^ 24
  := by
  apply Nat.div_lt_of_lt_mul
  exact Nat.mul_lt_mul_of_pos_right hn (by decide)

/-- The lowest word has the three highest bytes once the others are moved out. -/
theorem toNat_highest (target : UInt256) (hn : target.toNat < 256 ^ size) :
  (if size ≤ 3 then target.w₀ <<< UInt64.ofNat (8 * (3 - size))
    else (target.shiftRight (8 * (size - 3))).w₀).toNat = move target.toNat 3 size
  := by
  have hlt := move_lt hn
  split
  · next h =>
    have hamount : (UInt64.ofNat (8 * (3 - size))).toNat % 64 = 8 * (3 - size) := by
      rw [UInt64.toNat_ofNat']
      omega
    rw [move_of_ge h] at hlt ⊢
    rw [UInt64.toNat_shiftLeft, hamount, Nat.shiftLeft_eq, two_pow_eight_mul, UInt256.toNat_w₀,
      Nat.mod_mul_mod, Nat.mod_eq_of_lt (Nat.lt_trans hlt (by decide))]
  · next h =>
    rw [move_of_le (Nat.le_of_not_le h)] at hlt ⊢
    rw [UInt256.toNat_w₀, UInt256.toNat_shiftRight, two_pow_eight_mul,
      Nat.mod_eq_of_lt (Nat.lt_trans hlt (by decide))]

/-- A sign in the bytes moves them down, and the size up to the next one. -/
theorem toNat_pack {head : UInt32} (hhead : head.toNat < 2 ^ 24) (hsize : size + 1 < 2 ^ 8) :
  (if head &&& 0x00800000 ≠ 0 then (head >>> 8) ||| (UInt32.ofNat (size + 1) <<< 24)
    else head ||| (UInt32.ofNat size <<< 24)).toNat
    = if 2 ^ 23 ≤ head.toNat then 2 ^ 24 * (size + 1) + head.toNat / 2 ^ 8
      else 2 ^ 24 * size + head.toNat
  := by
  have hsign : head &&& 0x00800000 ≠ 0 ↔ 2 ^ 23 ≤ head.toNat := by
    rw [and_sign_ne_zero_iff, Nat.mod_eq_of_lt hhead]
  have hdown : (head >>> 8).toNat = head.toNat / 2 ^ 8 := by
    rw [UInt32.toNat_shiftRight, Nat.shiftRight_eq_div_pow]
    rfl
  simp only [hsign]
  split
  · next h => rw [toNat_or_size (by omega) hsize, hdown]
  · next h => rw [toNat_or_size hhead (Nat.lt_of_succ_lt hsize)]

/-- The compact form of a target is its size above its three highest bytes. -/
theorem exists_toNat_compact (target : UInt256) :
  ∃ size, IsSize target.toNat size
    ∧ (compact target).toNat = 2 ^ 24 * size + move target.toNat 3 size
  := by
  have hn := lt_bytes target.toNat
  have hbytes := bytes_le (n := target.toNat)
  have hsize : (target.toNat.size + 7) / 8 ≤ 32 := by
    have hle := Nat.size_le.mpr target.toNat_lt
    omega
  rw [compact, UInt256.bits_eq]
  generalize (target.toNat.size + 7) / 8 = size at hn hbytes hsize
  have hlt := move_lt hn
  have hword := toNat_highest target hn
  generalize (if size ≤ 3 then target.w₀ <<< UInt64.ofNat (8 * (3 - size))
    else (target.shiftRight (8 * (size - 3))).w₀) = word at hword
  have hhead : word.toUInt32.toNat = move target.toNat 3 size := by
    rw [UInt64.toNat_toUInt32, hword, Nat.mod_eq_of_lt (Nat.lt_trans hlt (by decide))]
  have hpack := toNat_pack (hhead ▸ hlt) (by omega : size + 1 < 2 ^ 8)
  refine ⟨_, isSize_bytes hn hbytes, hpack.trans ?_⟩
  rw [hhead]
  split
  · rw [move_succ]
  · rfl

/-! ### Rounding -/

variable {target rounded : UInt256}

/-- What a compact form reads back as: the three bytes at the size of the target. -/
theorem ofCompact_compact_iff (h : IsSize target.toNat size) :
  ofCompact (compact target) = .ok rounded
    ↔ rounded.toNat = move (move target.toNat 3 size) size 3
  := by
  obtain ⟨size', hsize, hcompact⟩ := exists_toNat_compact target
  obtain rfl := h.unique hsize
  have hlt := h.mantissa_lt
  have hmantissa : (compact target).toNat % 2 ^ 23 = move target.toNat 3 size := by omega
  have hexponent : (compact target).toNat / 2 ^ 24 = size := by omega
  rw [ofCompact_eq_ok_iff, hmantissa, hexponent]
  apply and_iff_right
  omega

/-- A compact form reads back as a target with the same compact form. -/
theorem compact_eq_of_ofCompact (h : ofCompact (compact target) = .ok rounded) :
  compact rounded = compact target
  := by
  obtain ⟨size, hsize, hcompact⟩ := exists_toNat_compact target
  obtain ⟨size', hsize', hcompact'⟩ := exists_toNat_compact rounded
  rw [ofCompact_compact_iff hsize] at h
  rw [h] at hsize' hcompact'
  obtain rfl := hsize.move_move.unique hsize'
  rw [← UInt32.toNat_inj, hcompact, hcompact', move_move_move]

/-- A compact form reads back as the greatest target in the format up to the given one. -/
theorem isGreatest_of_ofCompact (h : ofCompact (compact target) = .ok rounded) :
  IsGreatest {t | t ≤ target ∧ ∃ bits, ofCompact bits = .ok t} rounded
  := by
  obtain ⟨size, hsize, -⟩ := exists_toNat_compact target
  have hrounded := (ofCompact_compact_iff hsize).mp h
  constructor
  · refine ⟨?_, compact target, h⟩
    rw [UInt256.le_iff_toNat_le, hrounded]
    exact move_move_le target.toNat 3 size
  · rintro t ⟨hle, bits, hbits⟩
    obtain ⟨-, ht⟩ := (ofCompact_eq_ok_iff bits t).mp hbits
    rw [UInt256.le_iff_toNat_le, ht] at hle ⊢
    rw [hrounded]
    exact hsize.le_move_move (Nat.mod_lt _ (by decide)) hle

/-- Each target has a compact form that can be read. -/
theorem exists_ofCompact_compact (target : UInt256) :
  ∃ rounded, ofCompact (compact target) = .ok rounded
  := by
  obtain ⟨size, hsize, -⟩ := exists_toNat_compact target
  obtain ⟨rounded, hrounded⟩ := UInt256.exists_toNat_eq
    (Nat.lt_of_le_of_lt (move_move_le target.toNat 3 size) target.toNat_lt)
  exact ⟨rounded, (ofCompact_compact_iff hsize).mpr hrounded⟩

/-- The compact form of a target stands for the greatest target in the format that does not exceed
it. That one has the same compact form, a target in the format stands for itself, and the order of
targets is kept. -/
theorem ofCompact_compact_greatest (target : UInt256) :
  ∃ rounded, ofCompact (compact target) = .ok rounded
    ∧ IsGreatest {t | t ≤ target ∧ ∃ bits, ofCompact bits = .ok t} rounded
    ∧ compact rounded = compact target
    ∧ ((∃ bits, ofCompact bits = .ok target) → rounded = target)
    ∧ ∀ lesser lesser', lesser ≤ target → ofCompact (compact lesser) = .ok lesser' →
      lesser' ≤ rounded
  := by
  obtain ⟨rounded, hrounded⟩ := exists_ofCompact_compact target
  have hgreatest := isGreatest_of_ofCompact hrounded
  refine ⟨rounded, hrounded, hgreatest, compact_eq_of_ofCompact hrounded, ?_, ?_⟩
  · intro hformat
    exact le_antisymm hgreatest.1.1 (hgreatest.2 ⟨le_rfl, hformat⟩)
  · intro lesser lesser' hle hlesser'
    obtain ⟨⟨hle', hformat⟩, -⟩ := isGreatest_of_ofCompact hlesser'
    exact hgreatest.2 ⟨le_trans hle' hle, hformat⟩

/-- A highest bit that would be the sign moves the three bytes up, and the lowest one is lost. -/
theorem ofCompact_compact_greatest_sign :
  IsGreatest {t | t ≤ ⟨0x800001, 0, 0, 0⟩ ∧ ∃ bits, ofCompact bits = .ok t} ⟨0x800000, 0, 0, 0⟩
    ∧ compact ⟨0x800000, 0, 0, 0⟩ = compact ⟨0x800001, 0, 0, 0⟩
    ∧ ofCompact (compact ⟨0x800000, 0, 0, 0⟩) = .ok ⟨0x800000, 0, 0, 0⟩
    ∧ (⟨0x7fffff, 0, 0, 0⟩ : UInt256) ≤ ⟨0x800000, 0, 0, 0⟩
  := by
  obtain ⟨rounded, hread, hgreatest, hcompact, -, hmono⟩ :=
    ofCompact_compact_greatest ⟨0x800001, 0, 0, 0⟩
  obtain ⟨exact, hexact, -, -, hown, -⟩ := ofCompact_compact_greatest ⟨0x800000, 0, 0, 0⟩
  obtain rfl : rounded = ⟨0x800000, 0, 0, 0⟩ := (Except.ok.inj hread).symm
  obtain rfl := hown ⟨0x04008000, rfl⟩
  exact ⟨hgreatest, hcompact, hexact, hmono ⟨0x7fffff, 0, 0, 0⟩ _ (by decide) rfl⟩

end Bitcoin.Target
