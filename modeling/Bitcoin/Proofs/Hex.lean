import Bitcoin.Hex
import Bitcoin.Proofs.Text.Blank
import Bitcoin.Proofs.Text.Numeral

/-!
# Hexadecimal text is read back

The digits of a byte string are characters of one byte each, none of them a blank, and
decoding them gives the byte string (`Hex.decodeChars_encodeChars`).
-/

namespace Bitcoin

open Numeral

theorem Numeral.isBlank_hexDigit {d : Nat} (h : d < 16) :
  Text.isBlank (hexDigit d) = false
  := by
  revert d
  decide

theorem Numeral.utf8EncodeChar_hexDigit {d : Nat} (h : d < 16) :
  String.utf8EncodeChar (hexDigit d) = [UInt8.ofNat (hexDigit d).toNat]
  := by
  revert d
  decide

namespace Hex

/-- Encoded bytes begin and end without blanks. -/
theorem solid_encodeChars (bytes : Bytes) :
  Text.Solid (encodeChars bytes)
  := by
  intro c hc
  obtain ⟨b, _, hb⟩ := List.mem_flatMap.mp hc
  have hlt := b.toNat_lt
  rw [encodeByte, List.mem_pair] at hb
  rcases hb with rfl | rfl
  · exact isBlank_hexDigit (by omega)
  · exact isBlank_hexDigit (by omega)

theorem utf8_encodeChars_cons (b : UInt8) (bytes : Bytes) :
  Text.utf8 (encodeChars (b :: bytes))
    = UInt8.ofNat (hexDigit (b.toNat / 16)).toNat
      :: UInt8.ofNat (hexDigit (b.toNat % 16)).toNat :: Text.utf8 (encodeChars bytes)
  := by
  have hhigh : b.toNat / 16 < 16 := Nat.div_lt_of_lt_mul b.toNat_lt
  have hlow : b.toNat % 16 < 16 := Nat.mod_lt _ (by decide)
  simp [Text.utf8, encodeChars, encodeByte, utf8EncodeChar_hexDigit hhigh,
    utf8EncodeChar_hexDigit hlow]

/-- A hexadecimal digit is read back. -/
theorem digit_hexDigit {d : Nat} (h : d < 16) (index : Nat) :
  digit (UInt8.ofNat (hexDigit d).toNat) index = .ok d
  := by
  have hchar : Char.ofNat (UInt8.ofNat (hexDigit d).toNat).toNat = hexDigit d := by
    revert d
    decide
  rw [digit, hchar, digitValue?_hexDigit h]

/-- Encoded bytes are read back behind those that have been read. -/
theorem decodeFrom_encodeChars (done : Bytes) (index : Nat) (bytes : Bytes) :
  decodeFrom done index (Text.utf8 (encodeChars bytes)) = .ok (done.reverse ++ bytes)
  := by
  induction bytes generalizing done index with
  | nil =>
    rw [List.append_nil]
    rfl
  | cons b bytes ih =>
    have hlt := b.toNat_lt
    have hbyte : UInt8.ofNat (16 * (b.toNat / 16) + b.toNat % 16) = b := by
      rw [Nat.div_add_mod, UInt8.ofNat_toNat]
    rw [utf8_encodeChars_cons, decodeFrom, digit_hexDigit (by omega), digit_hexDigit (by omega)]
    change decodeFrom (_ :: done) (index + 2) _ = _
    rw [ih, hbyte, List.reverse_cons, List.append_assoc, List.singleton_append]

/-- Each byte has two digits. -/
theorem length_encodeChars (bytes : Bytes) :
  (encodeChars bytes).length = 2 * bytes.length
  := by
  induction bytes with
  | nil => rfl
  | cons b bytes ih =>
    change (encodeByte b ++ encodeChars bytes).length = _
    rw [List.length_append, ih, List.length_cons, Nat.mul_succ, Nat.add_comm]
    rfl

/-- Each of the digits is one byte of the text. -/
theorem length_utf8_encodeChars (bytes : Bytes) :
  (Text.utf8 (encodeChars bytes)).length = 2 * bytes.length
  := by
  induction bytes with
  | nil => rfl
  | cons b bytes ih =>
    rw [utf8_encodeChars_cons, List.length_cons, List.length_cons, List.length_cons, ih]
    omega

/-- A byte string is read back from its digits. -/
theorem decodeChars_encodeChars (bytes : Bytes) :
  decodeChars (encodeChars bytes) = .ok bytes
  := by
  have heven : ¬ (Text.utf8 (encodeChars bytes)).length % 2 = 1 := by
    rw [length_utf8_encodeChars]
    omega
  rw [decodeChars, if_neg heven, decodeFrom_encodeChars]
  rfl

end Hex

end Bitcoin
