import Bitcoin.Decimal
import Mathlib

/-!
# Doubles as numbers

A pattern of 64 bits is unpacked into a sign, a significand and a power of two, and
`Double.value?` is the rational number that these denote. The fields that a program reads off a
double are those of the pattern it was made from (`Double.fields_ofBits`), as long as the pattern
is that of a finite one: the patterns that are not a number are all made into the same. Where the
exponent puts the point decides which bits of the significand are the integer part.
-/

namespace Bitcoin.Double

open Float.Model
open Float.Model.UnpackedFloat (Sign unpackExponent unpackMantissa unpackSign)

variable {bits : UInt64} {q : ℚ}

/-- The number that a pattern of 64 bits denotes as a double, if that is finite. -/
def value? (bits : UInt64) : Option ℚ :=
  match UnpackedFloat.unpack .binary64 bits.toBitVec with
  | .zero _ => some 0
  | .finite sign significand exponent _ => some (sign.apply significand * 2 ^ exponent)
  | .infinity _ | .notANumber => none

/-! ### Fields -/

/-- The exponent in a pattern, with the bias. -/
def exponent (bits : UInt64) : Nat :=
  bits.toNat / 2 ^ 52 % 2 ^ 11

/-- The fraction in a pattern, without the hidden bit. -/
def fraction (bits : UInt64) : Nat :=
  bits.toNat % 2 ^ 52

/-- Whether the highest bit of a pattern is set. -/
def negative (bits : UInt64) : Bool :=
  bits.toNat / 2 ^ 63 = 1

/-- The sign of a pattern. -/
def sign (bits : UInt64) : Sign :=
  if negative bits then .negative else .positive

/-- The fraction, with the hidden bit where the exponent stands for one. -/
def significand (bits : UInt64) : Nat :=
  if exponent bits = 0 then fraction bits else Decimal.hiddenBit + fraction bits

/-- The fraction has 52 bits. -/
theorem fraction_lt (bits : UInt64) :
  fraction bits < 2 ^ 52
  := Nat.mod_lt _ (by decide)

theorem toNat_unpackExponent (bits : UInt64) :
  (@unpackExponent .binary64 bits.toBitVec).toNat = exponent bits
  := by
  change (bits.toNat >>> 52) % 2 ^ 11 = exponent bits
  rw [Nat.shiftRight_eq_div_pow, exponent]

theorem toNat_unpackMantissa (bits : UInt64) :
  (@unpackMantissa .binary64 bits.toBitVec).toNat = fraction bits
  := by
  change (bits.toNat >>> 0) % 2 ^ 52 = fraction bits
  rw [Nat.shiftRight_zero, fraction]

theorem unpackExponent_eq_iff {e : BitVec 11} :
  @unpackExponent .binary64 bits.toBitVec = e ↔ exponent bits = e.toNat
  := by
  rw [← toNat_unpackExponent]
  exact BitVec.toNat_inj.symm

theorem unpackMantissa_eq_iff {f : BitVec 52} :
  @unpackMantissa .binary64 bits.toBitVec = f ↔ fraction bits = f.toNat
  := by
  rw [← toNat_unpackMantissa]
  exact BitVec.toNat_inj.symm

theorem ofBitVec_unpackSign (bits : UInt64) :
  Sign.ofBitVec (@unpackSign .binary64 bits.toBitVec) = sign bits
  := by
  have hbit : (@unpackSign .binary64 bits.toBitVec).toNat = bits.toNat / 2 ^ 63 := by
    change (bits.toNat >>> 63) % 2 ^ 1 = bits.toNat / 2 ^ 63
    have hlt := bits.toNat_lt
    rw [Nat.shiftRight_eq_div_pow]
    omega
  rw [Sign.ofBitVec, sign, negative, ← hbit]
  rcases BitVec.eq_zero_or_eq_one (@unpackSign .binary64 bits.toBitVec) with h | h
  · rw [h]
    rfl
  · rw [h]
    rfl

/-! ### Unpacking -/

theorem unpack_of_zero (he : exponent bits = 0) (hf : fraction bits = 0) :
  UnpackedFloat.unpack .binary64 bits.toBitVec = .zero (sign bits)
  := by
  have he' := unpackExponent_eq_iff (e := 0#11) |>.mpr he
  have hf' := unpackMantissa_eq_iff (f := 0#52) |>.mpr hf
  rw [UnpackedFloat.unpack]
  dsimp only
  rw [he', if_neg (by decide), if_pos rfl, dif_pos hf', ofBitVec_unpackSign]

/-- Below the normal numbers the fraction is taken as it is. -/
theorem unpack_of_subnormal (he : exponent bits = 0) (hf : 0 < fraction bits) :
  UnpackedFloat.unpack .binary64 bits.toBitVec
    = .finite (sign bits) (fraction bits) (-1074) hf
  := by
  have he' := unpackExponent_eq_iff (e := 0#11) |>.mpr he
  have hf' := mt (unpackMantissa_eq_iff (f := 0#52)).mp hf.ne'
  rw [UnpackedFloat.unpack]
  dsimp only
  rw [he', if_neg (by decide), if_pos rfl, dif_neg hf']
  simp only [toNat_unpackMantissa, ofBitVec_unpackSign]
  congr 1

/-- A normal number has a further bit in front of its fraction. -/
theorem unpack_of_normal (he : exponent bits ≠ 0) (he' : exponent bits ≠ 2047) :
  UnpackedFloat.unpack .binary64 bits.toBitVec
    = .finite (sign bits) (2 ^ 52 + fraction bits) (exponent bits - 1075)
        (Nat.add_pos_left (Nat.two_pow_pos 52) _)
  := by
  have h₀ := mt (unpackExponent_eq_iff (e := 0#11)).mp he
  have h₁ := mt (unpackExponent_eq_iff (e := -1#11)).mp he'
  have hsum : (1#1 ++ @unpackMantissa .binary64 bits.toBitVec).toNat
      = 2 ^ 52 + fraction bits := by
    change 1 <<< 52 ||| (@unpackMantissa .binary64 bits.toBitVec).toNat = _
    rw [← Nat.shiftLeft_add_eq_or_of_lt (BitVec.isLt _), toNat_unpackMantissa]
    rfl
  rw [UnpackedFloat.unpack]
  dsimp only
  rw [if_neg h₁, if_neg h₀]
  simp only [hsum, toNat_unpackExponent, ofBitVec_unpackSign]
  congr 1

/-- A pattern is kept in a double, unless it is that of no number. -/
theorem toBits_ofBits (he : exponent bits ≠ 2047) :
  (Float.ofBits bits).toBits = bits
  := by
  have hnumber : ¬ @UnpackedFloat.isNaNBits .binary64 bits.toBitVec = true := by
    intro hnan
    exact he (unpackExponent_eq_iff.mp (of_decide_eq_true hnan).1)
  apply UInt64.toBitVec_inj.mp
  exact (@UnpackedFloat.pack_unpack .binary64 bits.toBitVec (by decide)).trans (if_neg hnumber)

/-- The fields of a double are those of its pattern. -/
theorem fields_ofBits (he : exponent bits ≠ 2047) :
  Decimal.fields (Float.ofBits bits) = (negative bits, exponent bits, fraction bits)
  := by
  rw [Decimal.fields, toBits_ofBits he]
  rfl

/-! ### The number -/

/-- The number of the fields, without the sign. -/
def magnitude (bits : UInt64) : ℚ :=
  significand bits * 2 ^ (max (exponent bits) 1 - 1075 : ℤ)

theorem magnitude_of_normal (he : exponent bits ≠ 0) :
  magnitude bits = (2 ^ 52 + fraction bits : ℕ) * 2 ^ (exponent bits - 1075 : ℤ)
  := by
  rw [magnitude, significand, if_neg he, max_eq_left (by omega)]
  rfl

theorem magnitude_of_subnormal (he : exponent bits = 0) :
  magnitude bits = fraction bits * 2 ^ (-1074 : ℤ)
  := by
  rw [magnitude, significand, if_pos he, he]
  rfl

/-- The number that is denoted is the magnitude with the sign. -/
theorem value?_eq (he : exponent bits ≠ 2047) :
  value? bits = some (if negative bits then -magnitude bits else magnitude bits)
  := by
  have hsign : ∀ n : Nat,
      (((sign bits).apply n : ℤ) : ℚ) = if negative bits then -(n : ℚ) else n := by
    intro n
    rw [sign]
    split <;> simp only [Sign.apply, Int.cast_neg, Int.cast_natCast]
  by_cases hzero : exponent bits = 0
  · rw [value?, magnitude_of_subnormal hzero]
    rcases Nat.eq_zero_or_pos (fraction bits) with hf | hf
    · rw [unpack_of_zero hzero hf, hf, Nat.cast_zero, zero_mul, neg_zero, ite_self]
    · rw [unpack_of_subnormal hzero hf]
      dsimp only
      rw [hsign, ite_mul, neg_mul]
  · rw [value?, magnitude_of_normal hzero, unpack_of_normal hzero he]
    dsimp only
    rw [hsign, ite_mul, neg_mul]

/-- The patterns with the greatest exponent are not those of numbers. -/
theorem exponent_ne (h : value? bits = some q) :
  exponent bits ≠ 2047
  := by
  intro he
  have he' := unpackExponent_eq_iff (e := -1#11) |>.mpr he
  rw [value?, UnpackedFloat.unpack] at h
  dsimp only at h
  rw [if_pos he'] at h
  split_ifs at h

theorem two_pow_mul_two_zpow (n : ℕ) (k : ℤ) :
  (2 : ℚ) ^ n * 2 ^ k = 2 ^ (n + k)
  := by
  rw [← zpow_natCast, ← zpow_add₀ two_ne_zero]

/-- The exponent bounds the magnitude from above. -/
theorem magnitude_lt (bits : UInt64) :
  magnitude bits < 2 ^ (exponent bits - 1022 : ℤ)
  := by
  have hfraction := fraction_lt bits
  by_cases hzero : exponent bits = 0
  · have hcast : (fraction bits : ℚ) < 2 ^ 52 := by exact_mod_cast hfraction
    calc magnitude bits
        = fraction bits * 2 ^ (-1074 : ℤ) := magnitude_of_subnormal hzero
      _ < 2 ^ 52 * 2 ^ (-1074 : ℤ) := by gcongr
      _ = 2 ^ (exponent bits - 1022 : ℤ) := by
        rw [two_pow_mul_two_zpow, hzero]
        rfl
  · have hcast : ((2 ^ 52 + fraction bits : ℕ) : ℚ) < 2 ^ 53 := by
      exact_mod_cast (by omega : 2 ^ 52 + fraction bits < 2 ^ 53)
    calc magnitude bits
        = (2 ^ 52 + fraction bits : ℕ) * 2 ^ (exponent bits - 1075 : ℤ) :=
          magnitude_of_normal hzero
      _ < 2 ^ 53 * 2 ^ (exponent bits - 1075 : ℤ) := by gcongr
      _ = 2 ^ (exponent bits - 1022 : ℤ) := by
        rw [two_pow_mul_two_zpow]
        congr 1
        omega

/-- The exponent of a normal number bounds it from below. -/
theorem le_magnitude (he : exponent bits ≠ 0) :
  2 ^ (exponent bits - 1023 : ℤ) ≤ magnitude bits
  := by
  have hcast : (2 ^ 52 : ℚ) ≤ (2 ^ 52 + fraction bits : ℕ) := by
    exact_mod_cast Nat.le_add_right _ _
  calc (2 : ℚ) ^ (exponent bits - 1023 : ℤ)
      = 2 ^ 52 * 2 ^ (exponent bits - 1075 : ℤ) := by
        rw [two_pow_mul_two_zpow]
        congr 1
        omega
    _ ≤ (2 ^ 52 + fraction bits : ℕ) * 2 ^ (exponent bits - 1075 : ℤ) := by gcongr
    _ = magnitude bits := (magnitude_of_normal he).symm

/-- The exponent says below which powers of two the number is. -/
theorem magnitude_lt_iff {k : ℤ} (hk : -1022 ≤ k) :
  magnitude bits < 2 ^ k ↔ exponent bits ≤ k + 1022
  := by
  constructor
  · intro h
    by_contra hgt
    have hle : (2 : ℚ) ^ k ≤ 2 ^ (exponent bits - 1023 : ℤ) :=
      zpow_le_zpow_right₀ one_le_two (by omega)
    exact absurd h (not_lt.mpr (hle.trans (le_magnitude (by omega))))
  · intro h
    have hle : (2 : ℚ) ^ (exponent bits - 1022 : ℤ) ≤ 2 ^ k :=
      zpow_le_zpow_right₀ one_le_two (by omega)
    exact (magnitude_lt bits).trans_le hle

/-- Whether a number has at most 256 bits can be told from its exponent. -/
theorem magnitude_lt_two_pow_iff :
  magnitude bits < 2 ^ 256 ↔ exponent bits ≤ 1278
  := by
  have h : magnitude bits < 2 ^ (256 : ℤ) ↔ exponent bits ≤ (256 + 1022 : ℤ) :=
    magnitude_lt_iff (by decide)
  rw [zpow_ofNat] at h
  rw [h]
  omega

theorem magnitude_nonneg (bits : UInt64) :
  0 ≤ magnitude bits
  := by
  rw [magnitude]
  positivity

theorem fields_eq_zero (h : magnitude bits = 0) :
  exponent bits = 0 ∧ fraction bits = 0
  := by
  have hzero : exponent bits = 0 := by
    by_contra hne
    have hpos : (0 : ℚ) < 2 ^ (exponent bits - 1023 : ℤ) := by positivity
    exact (hpos.trans_le (le_magnitude hne)).ne' h
  constructor
  · exact hzero
  · have hpos : (2 : ℚ) ^ (-1074 : ℤ) ≠ 0 := by positivity
    rw [magnitude_of_subnormal hzero] at h
    exact Nat.cast_eq_zero.mp ((mul_eq_zero_iff_right hpos).mp h)

/-- A number that is not negative has no sign, unless it is zero. -/
theorem eq_magnitude (h : value? bits = some q) (hq : 0 ≤ q) :
  q = magnitude bits ∧ ¬(negative bits ∧ ¬(exponent bits = 0 ∧ fraction bits = 0))
  := by
  rw [value?_eq (exponent_ne h), Option.some_inj] at h
  split at h
  · rw [← h, neg_nonneg] at hq
    have hzero := le_antisymm hq (magnitude_nonneg bits)
    constructor
    · rw [← h, hzero, neg_zero]
    · intro hsign
      exact hsign.2 (fields_eq_zero hzero)
  · next hsign =>
    constructor
    · exact h.symm
    · intro hsign'
      exact hsign hsign'.1

/-! ### The integer part -/

theorem floor_magnitude_eq_zero (hlt : exponent bits < 1023) :
  ⌊magnitude bits⌋₊ = 0
  := by
  have h : magnitude bits < 2 ^ (0 : ℤ) := (magnitude_lt_iff (by decide)).mpr (by omega)
  rw [zpow_zero] at h
  exact Nat.floor_eq_zero.mpr h

/-- Small exponents cut off bits of the fraction. -/
theorem floor_magnitude_eq_div (hle : 1023 ≤ exponent bits) (hlt : exponent bits < 1075) :
  ⌊magnitude bits⌋₊ = (2 ^ 52 + fraction bits) / 2 ^ (1075 - exponent bits)
  := by
  have hneg : (exponent bits - 1075 : ℤ) = -((1075 - exponent bits : ℕ) : ℤ) := by omega
  have hquotient : magnitude bits
      = ((2 ^ 52 + fraction bits : ℕ) : ℚ) / ((2 ^ (1075 - exponent bits) : ℕ) : ℚ) := by
    rw [magnitude_of_normal (by omega), hneg, zpow_neg, zpow_natCast, ← div_eq_mul_inv,
      Nat.cast_pow, Nat.cast_ofNat]
  rw [hquotient, Nat.floor_div_eq_div]

/-- Great exponents put zeros behind the fraction. -/
theorem floor_magnitude_eq_mul (hle : 1075 ≤ exponent bits) :
  ⌊magnitude bits⌋₊ = (2 ^ 52 + fraction bits) * 2 ^ (exponent bits - 1075)
  := by
  have hnat : (exponent bits - 1075 : ℤ) = ((exponent bits - 1075 : ℕ) : ℤ) := by omega
  have hproduct : magnitude bits
      = (((2 ^ 52 + fraction bits) * 2 ^ (exponent bits - 1075) : ℕ) : ℚ) := by
    rw [magnitude_of_normal (by omega), hnat, zpow_natCast, Nat.cast_mul, Nat.cast_pow,
      Nat.cast_ofNat]
  rw [hproduct, Nat.floor_natCast]

end Bitcoin.Double
