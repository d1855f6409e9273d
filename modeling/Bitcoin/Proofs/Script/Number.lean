import Bitcoin.Proofs.Bytes
import Bitcoin.Proofs.Text.Numeral
import Bitcoin.Script.Number

/-!
# Reading numbers in scripts back

The shortest form of an integer denotes the integer (`ScriptNumber.value_encode`). A byte
string counts as true exactly if it denotes a number other than zero
(`ScriptNumber.isTrue_eq`); so it makes no difference whether a number is written out
before its truth value is asked for.
-/

namespace Bitcoin

theorem Bytes.toNatBE_eq_zero_iff {bytes : Bytes} :
  toNatBE bytes = 0 ↔ ∀ b ∈ bytes, b = 0
  := by
  induction bytes with
  | nil => simp [toNatBE]
  | cons b rest ih =>
    rw [toNatBE_cons, Nat.add_eq_zero_iff, List.forall_mem_cons, ih, Nat.mul_eq_zero,
      or_iff_left (by simp), ← UInt8.toNat_inj]
    rfl

namespace ScriptNumber

/-! ### The sign -/

/-- A byte below the sign bit keeps its value when the bit is set. -/
theorem setSign_spec {top : UInt8} (h : ¬ top ≥ 0x80) :
  top ||| 0x80 ≥ 0x80 ∧ (top ||| 0x80) &&& 0x7f = top ∧ top &&& 0x7f = top
  := by
  have hall : ∀ n < 0x80, UInt8.ofNat n ||| 0x80 ≥ 0x80
      ∧ (UInt8.ofNat n ||| 0x80) &&& 0x7f = UInt8.ofNat n
      ∧ UInt8.ofNat n &&& 0x7f = UInt8.ofNat n := by
    decide
  have htop := hall top.toNat (UInt8.lt_iff_toNat_lt.mp (UInt8.not_le.mp h))
  rwa [UInt8.ofNat_toNat] at htop

/-- The top byte has the sign, and the rest of the magnitude stands below it. -/
theorem value_reverse_cons (top : UInt8) (rest : Bytes) :
  value (top :: rest).reverse
    = if top ≥ 0x80 then -(Bytes.toNatBE ((top &&& 0x7f) :: rest) : Int)
      else (Bytes.toNatBE (top :: rest) : Int)
  := by
  rw [value, List.reverse_reverse]

/-- The magnitude of a number is that of its bytes without the sign bit. -/
theorem natAbs_value_reverse_cons (top : UInt8) (rest : Bytes) :
  (value (top :: rest).reverse).natAbs = Bytes.toNatBE ((top &&& 0x7f) :: rest)
  := by
  rw [value_reverse_cons]
  split
  · rw [Int.natAbs_neg, Int.natAbs_natCast]
  · next hsign => rw [Int.natAbs_natCast, (setSign_spec hsign).2.2]

/-- A byte string counts as true if the number it denotes is not zero. -/
theorem isTrue_eq (bytes : Bytes) :
  isTrue bytes = (value bytes != 0)
  := by
  cases h : bytes.reverse with
  | nil => rw [isTrue, value, h]; rfl
  | cons top rest =>
    obtain rfl := List.reverse_eq_iff.mp h
    have hzero : value (top :: rest).reverse = 0 ↔ top &&& 0x7f = 0 ∧ ∀ b ∈ rest, b = 0 := by
      rw [← Int.natAbs_eq_zero, natAbs_value_reverse_cons, Bytes.toNatBE_eq_zero_iff,
        List.forall_mem_cons]
    rw [isTrue, h, Bool.eq_iff_iff]
    simp only [Bool.or_eq_true, List.any_eq_true, bne_iff_ne, ne_eq, hzero]
    rw [not_and_or, or_comm]
    simp

/-! ### The shortest form -/

/-- A number is denoted by its shortest form. -/
theorem value_encode (n : Int) :
  value (encode n) = n
  := by
  have hmagnitude := Bytes.toNatBE_map_digits n.natAbs
  rw [encode]
  cases h : (Numeral.digits 256 n.natAbs).map UInt8.ofNat with
  | nil =>
    rw [h] at hmagnitude
    have hzero : n = 0 := Int.natAbs_eq_zero.mp hmagnitude.symm
    rw [hzero]
    rfl
  | cons top rest =>
    rw [h] at hmagnitude
    dsimp only
    by_cases hsign : top ≥ 0x80
    · have hzero : Bytes.toNatBE (0 :: top :: rest) = n.natAbs := by
        rw [Bytes.toNatBE_cons, hmagnitude]
        simp
      rw [if_pos hsign, value_reverse_cons]
      by_cases hneg : n < 0
      · rw [if_pos hneg, if_pos (by decide), (by decide : (0x80 : UInt8) &&& 0x7f = 0), hzero]
        omega
      · rw [if_neg hneg, if_neg (by decide), hzero]
        omega
    · obtain ⟨hset, hclear, _⟩ := setSign_spec hsign
      rw [if_neg hsign, value_reverse_cons]
      by_cases hneg : n < 0
      · rw [if_pos hneg, if_pos hset, hclear, hmagnitude]
        omega
      · rw [if_neg hneg, if_neg hsign, hmagnitude]
        omega

/-- A number is true unless it is zero. -/
theorem isTrue_encode (n : Int) :
  isTrue (encode n) = (n != 0)
  := by
  rw [isTrue_eq, value_encode]

/-! ### Lengths -/

/-- The magnitude of a number has all bits of the bytes but one. -/
theorem two_mul_natAbs_value_lt (bytes : Bytes) :
  2 * (value bytes).natAbs < 256 ^ bytes.length
  := by
  cases h : bytes.reverse with
  | nil =>
    obtain rfl := List.reverse_eq_nil_iff.mp h
    decide
  | cons top rest =>
    obtain rfl := List.reverse_eq_iff.mp h
    have htop : (top &&& 0x7f).toNat ≤ 127 := by
      rw [UInt8.toNat_and]
      exact Nat.and_le_right
    have hrest := Bytes.toNatBE_lt rest
    have hscaled := Nat.mul_le_mul_right (256 ^ rest.length) htop
    rw [natAbs_value_reverse_cons, Bytes.toNatBE_cons, List.length_reverse, List.length_cons,
      pow_succ]
    omega

/-- The shortest form has no more bytes than the magnitude and the sign need. -/
theorem length_encode_le_iff {n : Int} {k : Nat} :
  (encode n).length ≤ k ↔ 2 * n.natAbs < 256 ^ k
  := by
  constructor
  · intro h
    have hlt := two_mul_natAbs_value_lt (encode n)
    rw [value_encode] at hlt
    exact lt_of_lt_of_le hlt (Nat.pow_le_pow_right (by decide) h)
  · intro h
    have hmagnitude := Bytes.toNatBE_map_digits n.natAbs
    have hlength : ((Numeral.digits 256 n.natAbs).map UInt8.ofNat).length ≤ k := by
      rw [List.length_map]
      exact Numeral.length_digits_le (by decide) (by omega)
    rw [encode]
    cases e : (Numeral.digits 256 n.natAbs).map UInt8.ofNat with
    | nil => exact Nat.zero_le _
    | cons top rest =>
      rw [e] at hmagnitude hlength
      dsimp only
      split
      · next hsign =>
        -- The top bit of the magnitude is taken, and the sign needs a byte of its own.
        rw [List.length_reverse, List.length_cons]
        by_contra hlt
        have hpow : 256 ^ k ≤ 256 ^ (rest.length + 1) :=
          Nat.pow_le_pow_right (by decide) (by rw [List.length_cons] at hlt; omega)
        have htop : 0x80 ≤ top.toNat := UInt8.le_iff_toNat_le.mp hsign
        have hscaled := Nat.mul_le_mul_right (256 ^ rest.length) htop
        rw [Bytes.toNatBE_cons] at hmagnitude
        rw [pow_succ] at hpow
        omega
      · rw [List.length_reverse]
        exact hlength

/-! ### Reading within a limit -/

/-- Bytes within the limit denote their value. -/
theorem decode_of_le {bytes : Bytes} {limit : Nat} (h : bytes.length ≤ limit) (height : limit ≤ 8) :
  decode bytes limit = .ok (value bytes)
  := by
  rw [decode, if_neg (by omega), if_neg (by omega)]

/-- A number is read back from its shortest form if this is within the limit. -/
theorem decode_encode {n : Int} {limit : Nat} (h : 2 * n.natAbs < 256 ^ limit)
    (height : limit ≤ 8) :
  decode (encode n) limit = .ok n
  := by
  rw [decode_of_le (length_encode_le_iff.mpr h) height, value_encode]

end ScriptNumber

end Bitcoin
