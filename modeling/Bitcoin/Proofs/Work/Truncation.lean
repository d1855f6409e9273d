import Bitcoin.Work.Difficulty
import Bitcoin.Proofs.Work.Double
import Bitcoin.Proofs.Work.UInt256

/-!
# Doubles truncated to words

The integer part of a double is taken exactly (`UInt256.ofFloatTrunc_exact`): below the bit of
weight one the significand is shifted to the right, where it loses the bits behind the point, and
above it to the left, where it loses none, since the doubles that would not fit are refused.
-/

namespace Bitcoin.UInt256

open Double

variable {bits : UInt64} {q : ℚ}

/-- The significand of a double that is not below one, as a word. -/
def significandWord (bits : UInt64) : UInt64 :=
  UInt64.ofNat (Decimal.hiddenBit + fraction bits)

theorem toNat_significandWord (bits : UInt64) :
  (significandWord bits).toNat = 2 ^ 52 + fraction bits
  := by
  have hlt := fraction_lt bits
  have hfit : 2 ^ 52 + fraction bits < 2 ^ 64 := by omega
  exact (UInt64.toNat_ofNat').trans (Nat.mod_eq_of_lt hfit)

/-- What is shifted to the right loses the bits behind the point. -/
theorem toNat_significandWord_shiftRight (hle : 1023 ≤ exponent bits)
    (hlt : exponent bits < 1075) :
  (ofUInt64 (significandWord bits >>> UInt64.ofNat (1075 - exponent bits))).toNat
    = (2 ^ 52 + fraction bits) / 2 ^ (1075 - exponent bits)
  := by
  have hplaces : (UInt64.ofNat (1075 - exponent bits)).toNat = 1075 - exponent bits :=
    UInt64.toNat_ofNat_of_lt' (by change _ < 2 ^ 64; omega)
  rw [toNat_ofUInt64, toNat_shiftRight_word (by omega), hplaces, toNat_significandWord]

/-- What is shifted to the left loses nothing. -/
theorem toNat_significandWord_shiftLeft (hle : exponent bits ≤ 1278) :
  ((ofUInt64 (significandWord bits)).shiftLeft (exponent bits - 1075)).toNat
    = (2 ^ 52 + fraction bits) * 2 ^ (exponent bits - 1075)
  := by
  have hfraction := fraction_lt bits
  have hfit : (2 ^ 52 + fraction bits) * 2 ^ (exponent bits - 1075) < 2 ^ 256 :=
    calc (2 ^ 52 + fraction bits) * 2 ^ (exponent bits - 1075)
        < 2 ^ 53 * 2 ^ (exponent bits - 1075) := by gcongr; omega
      _ = 2 ^ (53 + (exponent bits - 1075)) := (pow_add _ _ _).symm
      _ ≤ 2 ^ 256 := Nat.pow_le_pow_right (by decide) (by omega)
  rw [toNat_shiftLeft, toNat_ofUInt64, toNat_significandWord, Nat.mod_eq_of_lt hfit]

/-! ### The branches -/

section Branches

variable (he : exponent bits ≠ 2047)
  (hsign : ¬(negative bits ∧ ¬(exponent bits = 0 ∧ fraction bits = 0)))

include he hsign

theorem ofFloatTrunc_below_one (hlt : exponent bits < 1023) :
  ofFloatTrunc (Float.ofBits bits) = .ok zero
  := by
  rw [ofFloatTrunc, fields_ofBits he]
  dsimp only
  rw [if_neg he, if_neg hsign, if_pos hlt]

theorem ofFloatTrunc_shiftRight (hle : 1023 ≤ exponent bits) (hlt : exponent bits < 1075) :
  ofFloatTrunc (Float.ofBits bits)
    = .ok (ofUInt64 (significandWord bits >>> UInt64.ofNat (1075 - exponent bits)))
  := by
  rw [ofFloatTrunc, fields_ofBits he]
  dsimp only
  rw [if_neg he, if_neg hsign, if_neg (Nat.not_lt.mpr hle), if_pos hlt, significandWord]

theorem ofFloatTrunc_shiftLeft (hle : 1075 ≤ exponent bits) (hlt : exponent bits ≤ 1278) :
  ofFloatTrunc (Float.ofBits bits)
    = .ok ((ofUInt64 (significandWord bits)).shiftLeft (exponent bits - 1075))
  := by
  rw [ofFloatTrunc, fields_ofBits he]
  dsimp only
  rw [if_neg he, if_neg hsign, if_neg (by omega), if_neg (by omega), if_neg (by omega),
    significandWord]

theorem ofFloatTrunc_refused (hlt : 1278 < exponent bits) :
  ofFloatTrunc (Float.ofBits bits) = .error (.domain (.not256Bits (Float.ofBits bits)))
  := by
  rw [ofFloatTrunc, fields_ofBits he]
  dsimp only
  rw [if_neg he, if_neg hsign, if_neg (by omega), if_neg (by omega), if_pos (by omega)]

theorem exists_ofFloatTrunc_eq (hle : exponent bits ≤ 1278) :
  ∃ target, ofFloatTrunc (Float.ofBits bits) = .ok target ∧ target.toNat = ⌊magnitude bits⌋₊
  := by
  by_cases hone : exponent bits < 1023
  · use zero, ofFloatTrunc_below_one he hsign hone
    rw [floor_magnitude_eq_zero hone]
    rfl
  · by_cases hpoint : exponent bits < 1075
    · use ofUInt64 (significandWord bits >>> UInt64.ofNat (1075 - exponent bits))
      constructor
      · exact ofFloatTrunc_shiftRight he hsign (by omega) hpoint
      · rw [toNat_significandWord_shiftRight (by omega) hpoint,
          floor_magnitude_eq_div (by omega) hpoint]
    · use (ofUInt64 (significandWord bits)).shiftLeft (exponent bits - 1075)
      constructor
      · exact ofFloatTrunc_shiftLeft he hsign (by omega) hle
      · rw [toNat_significandWord_shiftLeft hle, floor_magnitude_eq_mul (by omega)]

end Branches

/-- For a double that is not negative, the integer part is taken if it has at most 256 bits and
refused otherwise, and a shift to the left cuts off none of the significand. -/
theorem ofFloatTrunc_exact (hvalue : value? bits = some q) (hq : 0 ≤ q) :
  (q < 2 ^ 256 →
    ∃ target, ofFloatTrunc (Float.ofBits bits) = .ok target ∧ target.toNat = ⌊q⌋₊)
  ∧ (2 ^ 256 ≤ q →
    ofFloatTrunc (Float.ofBits bits) = .error (.domain (.not256Bits (Float.ofBits bits))))
  ∧ ∀ (sign : Bool) (exponent fraction : Nat) (target : UInt256),
      Decimal.fields (Float.ofBits bits) = (sign, exponent, fraction) → 1075 ≤ exponent →
      ofFloatTrunc (Float.ofBits bits) = .ok target →
      target = (ofUInt64 (UInt64.ofNat (Decimal.hiddenBit + fraction))).shiftLeft (exponent - 1075)
        ∧ target.toNat = (Decimal.hiddenBit + fraction) * 2 ^ (exponent - 1075)
  := by
  have he := exponent_ne hvalue
  obtain ⟨rfl, hsign⟩ := eq_magnitude hvalue hq
  have hrange : 2 ^ 256 ≤ magnitude bits ↔ 1278 < exponent bits := by
    rw [← not_lt, magnitude_lt_two_pow_iff, not_le]
  rw [magnitude_lt_two_pow_iff, hrange]
  refine ⟨exists_ofFloatTrunc_eq he hsign, ofFloatTrunc_refused he hsign, ?_⟩
  intro sign e f target hfields hle hok
  rw [fields_ofBits he, Prod.mk.injEq, Prod.mk.injEq] at hfields
  obtain ⟨-, rfl, rfl⟩ := hfields
  have hfit : exponent bits ≤ 1278 := by
    by_contra hgt
    rw [ofFloatTrunc_refused he hsign (Nat.not_le.mp hgt)] at hok
    cases hok
  rw [ofFloatTrunc_shiftLeft he hsign hle hfit, Except.ok.injEq] at hok
  subst hok
  exact ⟨rfl, toNat_significandWord_shiftLeft hfit⟩

/-- The greatest double of 256 bits is taken, and the one behind it is refused. -/
theorem ofFloatTrunc_exact_greatest :
  value? 0x4FEFFFFFFFFFFFFF = some (9007199254740991 * 2 ^ 203)
    ∧ (∃ target, ofFloatTrunc (Float.ofBits 0x4FEFFFFFFFFFFFFF) = .ok target
      ∧ target.toNat = 9007199254740991 * 2 ^ 203)
    ∧ value? 0x4FF0000000000000 = some (2 ^ 256)
    ∧ ofFloatTrunc (Float.ofBits 0x4FF0000000000000)
      = .error (.domain (.not256Bits (Float.ofBits 0x4FF0000000000000)))
  := by
  have hgreatest : value? 0x4FEFFFFFFFFFFFFF = some (9007199254740991 * 2 ^ 203) := by
    have hexponent : exponent 0x4FEFFFFFFFFFFFFF = 1278 := by decide
    have hfraction : fraction 0x4FEFFFFFFFFFFFFF = 4503599627370495 := by decide
    rw [value?_eq (by decide), if_neg (by decide), magnitude_of_normal (by decide), hexponent,
      hfraction]
    norm_num
  have hnext : value? 0x4FF0000000000000 = some (2 ^ 256) := by
    have hexponent : exponent 0x4FF0000000000000 = 1279 := by decide
    have hfraction : fraction 0x4FF0000000000000 = 0 := by decide
    rw [value?_eq (by decide), if_neg (by decide), magnitude_of_normal (by decide), hexponent,
      hfraction]
    norm_num
  refine ⟨hgreatest, ?_, hnext, ?_⟩
  · obtain ⟨target, htarget, hfloor⟩ :=
      (ofFloatTrunc_exact hgreatest (by positivity)).1 (by norm_num)
    use target, htarget
    rw [hfloor]
    norm_cast
  · exact (ofFloatTrunc_exact hnext (by positivity)).2.1 le_rfl

end Bitcoin.UInt256
