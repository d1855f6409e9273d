import Bitcoin.Hex
import Bitcoin.Proofs.Except
import Bitcoin.Proofs.Text.Numeral

/-!
# Which texts are hexadecimal

A hexadecimal digit is a decimal digit or one of the first six letters, of either case
(`Numeral.IsHexDigit`). A hexadecimal numeral is made of such digits, behind at most one plus sign
(`Numeral.parse?_sixteen_eq_some_iff`). A byte string is read from an even number of them, two for
each byte (`Hex.decodeChars_eq_ok_iff`): what is not an ASCII character has no code that is a digit.
-/

namespace Bitcoin

namespace Numeral

/-- Whether a character is a hexadecimal digit. -/
def IsHexDigit (c : Char) : Prop :=
  '0' ≤ c ∧ c ≤ '9' ∨ 'A' ≤ c ∧ c ≤ 'F' ∨ 'a' ≤ c ∧ c ≤ 'f'

instance (c : Char) : Decidable (IsHexDigit c) :=
  inferInstanceAs (Decidable (_ ∨ _ ∨ _))

/-- The value of a hexadecimal digit. -/
def hexValue (c : Char) : Nat :=
  if c ≤ '9' then c.toNat - '0'.toNat
  else if c ≤ 'F' then c.toNat - 'A'.toNat + 10
  else c.toNat - 'a'.toNat + 10

theorem isHexDigit_iff_toNat {c : Char} :
  IsHexDigit c ↔ 48 ≤ c.toNat ∧ c.toNat ≤ 57 ∨ 65 ≤ c.toNat ∧ c.toNat ≤ 70
    ∨ 97 ≤ c.toNat ∧ c.toNat ≤ 102
  := by
  simp only [IsHexDigit, char_le_iff, Char.reduceToNat]

/-- In base 16 the hexadecimal digits have their values, and other characters have none. -/
theorem digitValue?_sixteen (c : Char) :
  digitValue? 16 c = if IsHexDigit c then some (hexValue c) else none
  := by
  simp only [digitValue?, hexValue, isHexDigit_iff_toNat, char_le_iff, Char.reduceToNat]
  generalize c.toNat = n
  grind

/-- Digits in a row have the values that each of them has. -/
theorem mapM_digitValue?_sixteen_eq_some_iff {digits : List Char} {values : List Nat} :
  digits.mapM (digitValue? 16) = some values
    ↔ (∀ c ∈ digits, IsHexDigit c) ∧ digits.map hexValue = values
  := by
  constructor
  · intro h
    induction digits generalizing values with
    | nil =>
      cases h
      exact ⟨List.forall_mem_nil _, rfl⟩
    | cons c digits ih =>
      rw [List.mapM_cons, Option.bind_eq_bind, Option.bind_eq_some_iff] at h
      obtain ⟨value, hvalue, h⟩ := h
      obtain ⟨values, hvalues, h⟩ := Option.bind_eq_some_iff.mp h
      cases h
      rw [digitValue?_sixteen, Option.ite_none_right_eq_some] at hvalue
      obtain ⟨hc, heq⟩ := hvalue
      cases heq
      obtain ⟨hdigits, rfl⟩ := ih hvalues
      exact ⟨List.forall_mem_cons.mpr ⟨hc, hdigits⟩, rfl⟩
  · rintro ⟨hdigits, rfl⟩
    apply mapM_eq_some_of_forall
    intro c hc
    rw [digitValue?_sixteen, if_pos (hdigits c hc)]

/-- Whether a text is a hexadecimal numeral of a number: at least one digit, behind at most one plus
sign. -/
def IsHexNumeral (text : List Char) (n : Nat) : Prop :=
  ∃ sign digits, (sign = [] ∨ sign = ['+']) ∧ text = sign ++ digits ∧ digits ≠ []
    ∧ (∀ c ∈ digits, IsHexDigit c) ∧ ofDigits 16 (digits.map hexValue) = n

/-- The numbers below a bound are read from their numerals. -/
theorem parse?_sixteen_eq_some_iff {bound n : Nat} {text : List Char} :
  parse? 16 bound text = some n ↔ IsHexNumeral text n ∧ n < bound
  := by
  have hread : ∀ digits : List Char, (do
      let ds ← digits.mapM (digitValue? 16)
      if ds.isEmpty then none
      else if ofDigits 16 ds < bound then some (ofDigits 16 ds) else none) = some n
      ↔ (digits ≠ [] ∧ (∀ c ∈ digits, IsHexDigit c) ∧ ofDigits 16 (digits.map hexValue) = n)
        ∧ n < bound := by
    intro digits
    rw [Option.bind_eq_bind, Option.bind_eq_some_iff]
    simp only [mapM_digitValue?_sixteen_eq_some_iff]
    constructor
    · rintro ⟨_, ⟨hall, rfl⟩, h⟩
      rw [List.isEmpty_map] at h
      split_ifs at h with hempty hlt
      cases h
      exact ⟨⟨List.isEmpty_iff.not.mp hempty, hall, rfl⟩, hlt⟩
    · rintro ⟨⟨hne, hall, rfl⟩, hlt⟩
      refine ⟨_, ⟨hall, rfl⟩, ?_⟩
      rw [List.isEmpty_map, if_neg (List.isEmpty_iff.not.mpr hne), if_pos hlt]
  by_cases hplus : ∃ rest, text = '+' :: rest
  · obtain ⟨rest, rfl⟩ := hplus
    rw [parse?]
    apply (hread rest).trans
    apply and_congr_left
    intro _
    constructor
    · exact fun h => ⟨['+'], rest, .inr rfl, rfl, h⟩
    · rintro ⟨_, digits, rfl | rfl, htext, hne, hall, h⟩
      · rw [List.nil_append] at htext
        subst htext
        apply absurd (hall '+' List.mem_cons_self) (by decide)
      · obtain rfl := (List.cons.inj htext).2
        exact ⟨hne, hall, h⟩
  · rw [parse?.eq_2 _ _ _ fun rest h => hplus ⟨rest, h⟩]
    apply (hread text).trans
    apply and_congr_left
    intro _
    constructor
    · exact fun h => ⟨[], text, .inl rfl, rfl, h⟩
    · rintro ⟨_, digits, rfl | rfl, rfl, h⟩
      · exact h
      · apply absurd ⟨digits, rfl⟩ hplus

end Numeral

namespace Hex

open Numeral

/-- The bytes whose digits are given, two for each byte. -/
def pairs : List Char → Bytes
  | high :: low :: rest => UInt8.ofNat (16 * hexValue high + hexValue low) :: pairs rest
  | _ => []

/-- Whether a text is the hexadecimal digits of a byte string, two for each byte. -/
structure Denotes (text : List Char) (data : Bytes) : Prop where
  even : text.length % 2 = 0
  isHexDigit : ∀ c ∈ text, IsHexDigit c
  pairs_eq : pairs text = data

theorem digit_eq_ok_iff {code : UInt8} {index value : Nat} :
  digit code index = .ok value
    ↔ IsHexDigit (Char.ofNat code.toNat) ∧ hexValue (Char.ofNat code.toNat) = value
  := by
  rw [digit, digitValue?_sixteen]
  by_cases h : IsHexDigit (Char.ofNat code.toNat)
  · simp [h]
  · simp [h]

/-- Codes are decoded in pairs, if they are all those of digits. -/
theorem decodeFrom_eq_ok_iff {done codes data : Bytes} {index : Nat} :
  decodeFrom done index codes = .ok data
    ↔ codes.length % 2 = 0 ∧ (∀ code ∈ codes, IsHexDigit (Char.ofNat code.toNat))
      ∧ data = done.reverse ++ pairs (codes.map fun code => Char.ofNat code.toNat)
  := by
  fun_induction decodeFrom done index codes with
  | case1 => simp [pairs, eq_comm]
  | case2 => simp
  | case3 done index high low rest ih =>
    simp only [bind_eq_ok_iff, digit_eq_ok_iff, ih, List.length_cons, List.forall_mem_cons,
      List.map_cons, pairs, List.reverse_cons, List.append_assoc, List.singleton_append]
    constructor
    · rintro ⟨_, ⟨hhigh, rfl⟩, _, ⟨hlow, rfl⟩, heven, hrest, rfl⟩
      exact ⟨by omega, ⟨hhigh, hlow, hrest⟩, rfl⟩
    · rintro ⟨heven, ⟨hhigh, hlow, hrest⟩, rfl⟩
      exact ⟨_, ⟨hhigh, rfl⟩, _, ⟨hlow, rfl⟩, by omega, hrest, rfl⟩

theorem toNat_ofNat_code (code : UInt8) :
  (Char.ofNat code.toNat).toNat = code.toNat
  := by
  have hvalid : code.toNat.isValidChar := .inl (Nat.lt_trans code.toNat_lt (by decide))
  rw [Char.ofNat, dif_pos hvalid]
  rfl

/-- The code of an ASCII character is that character. -/
theorem codes_of_ascii {c : Char} (h : c.toNat ≤ 0x7f) :
  (String.utf8EncodeChar c).map (fun code => Char.ofNat code.toNat) = [c]
  := by
  have hcode : (UInt8.ofNat c.toNat).toNat = c.toNat := by
    rw [UInt8.toNat_ofNat']
    omega
  have hcodes : String.utf8EncodeChar c = [UInt8.ofNat c.toNat] := if_pos h
  rw [hcodes, List.map_singleton, hcode, Char.ofNat_toNat]

/-- A digit is a single byte of the text. -/
theorem codes_of_isHexDigit {c : Char} (h : IsHexDigit c) :
  (String.utf8EncodeChar c).map (fun code => Char.ofNat code.toNat) = [c]
  := by
  have hc := isHexDigit_iff_toNat.mp h
  apply codes_of_ascii (by omega)

/-- A character whose codes are all digits is a digit. -/
theorem isHexDigit_of_codes {c : Char}
    (h : ∀ code ∈ String.utf8EncodeChar c, IsHexDigit (Char.ofNat code.toNat)) :
  IsHexDigit c
  := by
  by_cases hascii : c.toNat ≤ 0x7f
  · have hmap := List.forall_mem_map.mpr h
    rw [codes_of_ascii hascii] at hmap
    apply List.forall_mem_singleton.mp hmap
  · obtain ⟨code, hcode, hhigh⟩ : ∃ code ∈ String.utf8EncodeChar c, 0x80 ≤ code.toNat := by
      have hval : ¬ c.val.toNat ≤ 0x7f := hascii
      simp only [String.utf8EncodeChar, if_neg hval]
      split_ifs <;> refine ⟨_, List.mem_cons_self, ?_⟩ <;> rw [UInt8.toNat_ofNat'] <;> omega
    have hdigit := isHexDigit_iff_toNat.mp (h code hcode)
    rw [toNat_ofNat_code] at hdigit
    omega

theorem map_utf8_of_digits {text : List Char} (h : ∀ c ∈ text, IsHexDigit c) :
  (Text.utf8 text).map (fun code => Char.ofNat code.toNat) = text
  := by
  rw [Text.utf8, List.map_flatMap]
  induction text with
  | nil => rfl
  | cons c text ih =>
    obtain ⟨hc, htext⟩ := List.forall_mem_cons.mp h
    rw [List.flatMap_cons, codes_of_isHexDigit hc, ih htext, List.singleton_append]

/-- A byte string is read from its digits. -/
theorem decodeChars_eq_ok_iff {text : List Char} {data : Bytes} :
  decodeChars text = .ok data ↔ Denotes text data
  := by
  have hcodes : decodeChars text = .ok data
      ↔ (Text.utf8 text).length % 2 = 0
        ∧ (∀ code ∈ Text.utf8 text, IsHexDigit (Char.ofNat code.toNat))
        ∧ data = pairs ((Text.utf8 text).map fun code => Char.ofNat code.toNat) := by
    have hdecode := @decodeFrom_eq_ok_iff [] (Text.utf8 text) data 0
    rw [List.reverse_nil, List.nil_append] at hdecode
    rw [decodeChars]
    split
    · next hodd => simp [hodd]
    · exact hdecode
  rw [hcodes]
  constructor
  · rintro ⟨heven, hall, rfl⟩
    have htext : ∀ c ∈ text, IsHexDigit c := fun c hc =>
      isHexDigit_of_codes fun code hcode => hall code (List.mem_flatMap.mpr ⟨c, hc, hcode⟩)
    have hmap := map_utf8_of_digits htext
    have hlength := congrArg List.length hmap
    rw [List.length_map] at hlength
    exact ⟨hlength ▸ heven, htext, by rw [hmap]⟩
  · rintro ⟨heven, hall, rfl⟩
    have hmap := map_utf8_of_digits hall
    have hlength := congrArg List.length hmap
    rw [List.length_map] at hlength
    refine ⟨by rwa [hlength], ?_, by rw [hmap]⟩
    rw [← hmap] at hall
    exact List.forall_mem_map.mp hall

end Hex

end Bitcoin
