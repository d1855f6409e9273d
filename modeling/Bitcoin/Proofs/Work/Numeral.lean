import Bitcoin.Proofs.Bytes
import Bitcoin.Proofs.Except
import Bitcoin.Proofs.Hex
import Bitcoin.Proofs.Work.UInt256

/-!
# Words of 256 bits are read back

The bytes of a word denote its number, whichever of the two they are made from, and a word is read
back from its bytes and from its displayed form. The displayed form lacks the zeros in front, and
reading fills them up again (`UInt256.ofHex_display`). So each operation on words is the one on the
numbers of the words (`UInt256.operations_on_numbers`).
-/

namespace Bitcoin

/-- The bytes in front stand above the rest. -/
theorem Bytes.toNatBE_take_add_drop (k : Nat) (bytes : Bytes) :
  toNatBE bytes = toNatBE (bytes.take k) * 256 ^ (bytes.length - k) + toNatBE (bytes.drop k)
  := by
  conv_lhs => rw [← List.take_append_drop k bytes, toNatBE_append, List.length_drop]

/-- What is dropped in front of a text is copies of the character. -/
theorem Text.replicate_append_dropWhile (c : Char) (text : List Char) :
  List.replicate (text.length - (text.dropWhile (· = c)).length) c ++ text.dropWhile (· = c)
    = text
  := by
  have hsplit := List.takeWhile_append_dropWhile (p := (· = c)) (l := text)
  have hlength := congrArg List.length hsplit
  have hfront : text.takeWhile (· = c) = List.replicate (text.takeWhile (· = c)).length c := by
    rw [List.eq_replicate_length]
    intro b hb
    simpa using List.mem_takeWhile_imp hb
  have hcopies : text.length - (text.dropWhile (· = c)).length
      = (text.takeWhile (· = c)).length := by
    rw [List.length_append] at hlength
    omega
  rw [hcopies, ← hfront, hsplit]

namespace UInt256

/-! ### Bytes -/

theorem toNat_wordAt (bytes : Bytes) (offset : Nat) :
  (wordAt bytes offset).toNat = Bytes.toNatBE ((bytes.drop offset).take 8)
  := by
  have hlt := Bytes.toNatBE_lt ((bytes.drop offset).take 8)
  have hle : 256 ^ ((bytes.drop offset).take 8).length ≤ 256 ^ 8 :=
    Nat.pow_le_pow_right (by decide) (List.length_take_le 8 _)
  rw [wordAt, UInt64.toNat_ofNat']
  apply Nat.mod_eq_of_lt (Nat.lt_of_lt_of_le hlt hle)

/-- A word has the number that its bytes denote. -/
theorem toNat_ofBytes (bytes : FixedBytes 32) :
  (ofBytes bytes).toNat = bytes.toNatBE
  := by
  obtain ⟨bytes, hlength⟩ := bytes
  have hend : (bytes.drop 24).take 8 = bytes.drop 24 := by
    apply List.take_of_length_le
    rw [List.length_drop, hlength]
  have h₀ := Bytes.toNatBE_take_add_drop 8 bytes
  have h₈ := Bytes.toNatBE_take_add_drop 8 (bytes.drop 8)
  have h₁₆ := Bytes.toNatBE_take_add_drop 8 (bytes.drop 16)
  simp only [List.length_drop, List.drop_drop, hlength, Nat.reduceAdd, Nat.reduceSub,
    Nat.reducePow] at h₀ h₈ h₁₆
  rw [FixedBytes.toNatBE, h₀, h₈, h₁₆, toNat_eq, ofBytes]
  simp only [toNat_wordAt, hend, List.drop_zero]
  omega

/-- The bytes of a word denote its number. -/
theorem toNatBE_toBytes (x : UInt256) :
  x.toBytes.toNatBE = x.toNat
  := by
  have hword : ∀ w : UInt64, Bytes.toNatBE (Bytes.ofNatBE 8 w.toNat) = w.toNat :=
    fun w => Bytes.toNatBE_ofNatBE_of_lt w.toNat_lt
  rw [FixedBytes.toNatBE, toBytes, toNat_eq]
  simp only [List.flatMap_cons, List.flatMap_nil, List.append_nil, Bytes.toNatBE_append, hword,
    List.length_append, Bytes.length_ofNatBE, Nat.reduceAdd, Nat.reducePow]
  omega

theorem ofBytes_toBytes (x : UInt256) :
  ofBytes x.toBytes = x
  := by
  rw [← toNat_inj, toNat_ofBytes, toNatBE_toBytes]

/-! ### The displayed form -/

/-- The digits that are displayed are those of the bytes without zeros in front, but for one digit
that is left of zero. -/
theorem exists_digits (x : UInt256) :
  ∃ digits, x.display.toList = '0' :: 'x' :: digits ∧ digits ≠ []
    ∧ List.replicate (64 - digits.length) '0' ++ digits = Hex.encodeChars x.toBytes.toList
  := by
  have hfill := Text.replicate_append_dropWhile '0' (Hex.encodeChars x.toBytes.toList)
  rw [Hex.length_encodeChars, x.toBytes.length_eq] at hfill
  have hmark : ∀ digits, ("0x" ++ String.ofList digits).toList = '0' :: 'x' :: digits := by
    intro digits
    have htext := @String.toList_ofList digits
    rw [String.toList_append, htext]
    rfl
  refine ⟨_, hmark _, ?_⟩
  split
  · next hzero =>
    rw [List.isEmpty_iff.mp hzero] at hfill
    exact ⟨by decide, hfill⟩
  · next hne => exact ⟨List.isEmpty_iff.not.mp hne, hfill⟩

theorem ofHex_display (x : UInt256) :
  ofHex x.display = .ok x
  := by
  obtain ⟨digits, hdisplay, hne, hfill⟩ := exists_digits x
  have hcodes : (Text.utf8 (Hex.encodeChars x.toBytes.toList)).length = 64 := by
    rw [Hex.length_utf8_encodeChars, x.toBytes.length_eq]
  have hshort : (Text.utf8 digits).length ≤ 64 := by
    rw [← hcodes, ← hfill, Text.utf8, Text.utf8, List.flatMap_append, List.length_append]
    apply Nat.le_add_left
  have hdigits : digitsOf ('0' :: 'x' :: digits) = digits := rfl
  rw [ofHex, hdisplay, ofHexChars, hdigits]
  dsimp only
  rw [if_neg (by simp [hne, hshort]), hfill, if_neg (by simp [hcodes]),
    Hex.decodeChars_encodeChars, Except.mapError, bind_of_eq_ok rfl, FixedBytes.ofList?_toList]
  dsimp only
  rw [ofBytes_toBytes]

/-- Each operation on words is the one on their numbers: the shifts, by any number of bits, are
multiplication and division by a power of two, the bits are counted and words are compared as
numbers are, and a word is read back from the bytes of its number and from its displayed form. -/
theorem operations_on_numbers (x y : UInt256) (k : Nat) :
  (x.shiftLeft k).toNat = x.toNat * 2 ^ k % 2 ^ 256
    ∧ (x.shiftRight k).toNat = x.toNat / 2 ^ k
    ∧ x.bits = x.toNat.size
    ∧ x.order y = compare x.toNat y.toNat
    ∧ ofBytes x.toBytes = x
    ∧ x.toBytes.toNatBE = x.toNat
    ∧ ofHex x.display = .ok x
  := ⟨toNat_shiftLeft x k, toNat_shiftRight x k, bits_eq x, order_eq x y, ofBytes_toBytes x,
    toNatBE_toBytes x, ofHex_display x⟩

end UInt256

end Bitcoin
