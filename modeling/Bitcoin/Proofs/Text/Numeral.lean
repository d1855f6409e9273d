import Bitcoin.Bytes
import Bitcoin.Proofs.Except
import Bitcoin.Text.Numeral
import Mathlib.Data.Nat.Digits.Lemmas

/-!
# Numerals and the numbers they denote

The digits of a number denote it, also behind zeros. So a number that is written in
hexadecimal is read back, whatever the width it was padded to (`Numeral.parse?_hex`), and
so is one that is written in decimal (`Numeral.parse?_toDigits`).
-/

namespace Bitcoin.Numeral

/-- Characters have the order of their numbers. -/
theorem char_le_iff {a b : Char} :
  a ≤ b ↔ a.toNat ≤ b.toNat
  := by
  rw [Char.le_def, UInt32.le_iff_toNat_le]
  apply Iff.rfl

/-- Digits are listed most significant first. -/
theorem digitsOnto_eq {base : Nat} (hbase : 1 < base) {fuel n : Nat} (h : n < base ^ fuel)
    (tail : List Nat) :
  digitsOnto base fuel n tail = (Nat.digits base n).reverse ++ tail
  := by
  induction fuel generalizing n tail with
  | zero =>
    obtain rfl : n = 0 := by simpa using h
    rw [digitsOnto, Nat.digits_zero]
    rfl
  | succ fuel ih =>
    rw [digitsOnto]
    split
    · next hzero =>
      rw [hzero, Nat.digits_zero]
      rfl
    · next hpos =>
      have hlt : n / base < base ^ fuel := by
        apply Nat.div_lt_of_lt_mul
        rwa [← Nat.pow_succ']
      rw [ih hlt, Nat.digits_def' hbase (Nat.pos_of_ne_zero hpos), List.reverse_cons,
        List.append_assoc, List.singleton_append]

theorem digits_eq {base : Nat} (hbase : 1 < base) (n : Nat) :
  digits base n = (Nat.digits base n).reverse
  := by
  have h : n < base ^ (n.log2 + 1) := by
    apply Nat.lt_of_lt_of_le Nat.lt_log2_self
    apply Nat.pow_le_pow_left hbase
  rw [digits, digitsOnto_eq hbase h, List.append_nil]

theorem ofDigits_eq (base : Nat) (ds : List Nat) :
  ofDigits base ds = Nat.ofDigits base ds.reverse
  := by
  rw [ofDigits, Nat.ofDigits_eq_foldr, List.foldr_reverse]
  congr 1
  funext n d
  rw [Nat.cast_id, Nat.add_comm, Nat.mul_comm]

/-- A number is read back from its digits. -/
theorem ofDigits_digits {base : Nat} (hbase : 1 < base) (n : Nat) :
  ofDigits base (digits base n) = n
  := by
  rw [ofDigits_eq, digits_eq hbase, List.reverse_reverse, Nat.ofDigits_digits]

theorem lt_of_mem_digits {base n d : Nat} (hbase : 1 < base) (h : d ∈ digits base n) :
  d < base
  := by
  rw [digits_eq hbase, List.mem_reverse] at h
  apply Nat.digits_lt_base hbase h

/-- A small number has few digits. -/
theorem length_digits_le {base n k : Nat} (hbase : 1 < base) (h : n < base ^ k) :
  (digits base n).length ≤ k
  := by
  rw [digits_eq hbase, List.length_reverse, Nat.digits_length_le_iff hbase]
  apply h

/-- Zeros in front do not change the number. -/
theorem ofDigits_replicate_append (base k : Nat) (ds : List Nat) :
  ofDigits base (List.replicate k 0 ++ ds) = ofDigits base ds
  := by
  rw [ofDigits_eq, ofDigits_eq, List.reverse_append, List.reverse_replicate,
    Nat.ofDigits_append_replicate_zero]

/-- A number other than zero has no zero in front of its digits. -/
theorem head?_digits_ne {base n d : Nat} (hbase : 1 < base) (h : d ∈ (digits base n).head?) :
  d ≠ 0
  := by
  rw [digits_eq hbase, List.head?_reverse] at h
  have hne : Nat.digits base n ≠ [] := by
    rintro hnil
    rw [hnil] at h
    cases h
  have hn : n ≠ 0 := by
    rintro rfl
    exact hne (Nat.digits_zero base)
  rw [List.getLast?_eq_getLast_of_ne_nil hne] at h
  cases h
  apply Nat.getLast_digit_ne_zero base hn

/-- Digits without a zero in front are those of the number that they denote. -/
theorem digits_ofDigits {base : Nat} (hbase : 1 < base) {ds : List Nat} (h : ∀ d ∈ ds, d < base)
    (hhead : ∀ d ∈ ds.head?, d ≠ 0) :
  digits base (ofDigits base ds) = ds
  := by
  rw [digits_eq hbase, ofDigits_eq, Nat.digits_ofDigits base hbase, List.reverse_reverse]
  · exact fun d hd => h d (List.mem_reverse.mp hd)
  · intro hne
    apply hhead
    rw [← List.getLast?_reverse]
    apply List.getLast?_eq_getLast_of_ne_nil hne

/-! ### Hexadecimal -/

theorem digitValue?_hexDigit {d : Nat} (h : d < 16) :
  digitValue? 16 (hexDigit d) = some d
  := by
  revert d
  decide

theorem mapM_digitValue?_hexDigit {ds : List Nat} (h : ∀ d ∈ ds, d < 16) :
  (ds.map hexDigit).mapM (digitValue? 16) = some ds
  := by
  induction ds with
  | nil => rfl
  | cons d ds ih =>
    obtain ⟨hd, hds⟩ := List.forall_mem_cons.mp h
    rw [List.map_cons, List.mapM_cons, digitValue?_hexDigit hd, ih hds]
    rfl

theorem hexDigit_ne_plus {d : Nat} (h : d < 16) :
  hexDigit d ≠ '+'
  := by
  revert d
  decide

/-- A number below a bound is read back from its hexadecimal digits. -/
theorem parse?_hexDigit {bound : Nat} {ds : List Nat} (h : ∀ d ∈ ds, d < 16) (hne : ds ≠ [])
    (hbound : ofDigits 16 ds < bound) :
  parse? 16 bound (ds.map hexDigit) = some (ofDigits 16 ds)
  := by
  have hvalues := mapM_digitValue?_hexDigit h
  obtain ⟨d, rest, rfl⟩ := List.exists_cons_of_ne_nil hne
  have hsign : ∀ unsigned : List Char, List.map hexDigit (d :: rest) = '+' :: unsigned → False :=
    fun _ hplus => hexDigit_ne_plus (h d List.mem_cons_self) (List.cons.inj hplus).1
  rw [parse?.eq_2 _ _ _ hsign, hvalues]
  apply if_pos hbound

/-- A numeral is made of digits of its number, with zeros in front. -/
theorem exists_toList_hex (width n : Nat) :
  ∃ ds, (hex width n).toList = ds.map hexDigit ∧ (∀ d ∈ ds, d < 16) ∧ ds ≠ []
    ∧ ofDigits 16 ds = n
  := by
  have hzeros : ∀ k, List.replicate k '0' = (List.replicate k 0).map hexDigit := by
    intro k
    rw [List.map_replicate]
    rfl
  have hlt : ∀ k, ∀ d ∈ List.replicate k 0, d < 16 := by
    intro k d hd
    rw [List.eq_of_mem_replicate hd]
    decide
  rw [hex, String.toList_ofList]
  split
  · next hn =>
    refine ⟨List.replicate (width - 1) 0 ++ [0], ?_, ?_, by simp, ?_⟩
    · rw [List.map_append, ← hzeros]
      rfl
    · exact List.forall_mem_append.mpr ⟨hlt _, by simp⟩
    · rw [ofDigits_replicate_append, hn]
      rfl
  · next hn =>
    have hdigits : ofDigits 16 (digits 16 n) = n := ofDigits_digits (by decide) n
    refine ⟨List.replicate (width - ((digits 16 n).map hexDigit).length) 0 ++ digits 16 n,
      ?_, ?_, ?_, ?_⟩
    · rw [List.map_append, ← hzeros]
    · exact List.forall_mem_append.mpr ⟨hlt _, fun d => lt_of_mem_digits (by decide)⟩
    · intro hnil
      rw [(List.append_eq_nil_iff.mp hnil).2] at hdigits
      apply hn hdigits.symm
    · rw [ofDigits_replicate_append, hdigits]

/-- A number is read back from its numeral. -/
theorem parse?_hex {bound n : Nat} (h : n < bound) (width : Nat) :
  parse? 16 bound (hex width n).toList = some n
  := by
  obtain ⟨ds, htext, hds, hne, rfl⟩ := exists_toList_hex width n
  rw [htext, parse?_hexDigit hds hne h]

/-! ### Decimal -/

theorem digitValue?_ten {c : Char} (h : c.isDigit = true) :
  digitValue? 10 c = some (c.toNat - '0'.toNat)
  := by
  have hc : 48 ≤ c.toNat ∧ c.toNat ≤ 57 := by
    simpa [Char.isDigit, UInt32.le_iff_toNat_le] using h
  simp only [digitValue?, char_le_iff, Char.reduceToNat, if_pos hc]
  simp
  omega

/-- Decimal numbers are written with digits only. -/
theorem isDigit_of_mem_toDigits {n : Nat} {c : Char} (h : c ∈ Nat.toDigits 10 n) :
  c.isDigit = true
  := Nat.isDigit_of_mem_toDigits (by decide) (by decide) h

/-- A number is read back from its decimal digits. -/
theorem parse?_toDigits {bound n : Nat} (h : n < bound) :
  parse? 10 bound (Nat.toDigits 10 n) = some n
  := by
  have hsign : ∀ unsigned : List Char, Nat.toDigits 10 n = '+' :: unsigned → False := by
    intro unsigned hplus
    have hdigit := isDigit_of_mem_toDigits (n := n) (hplus ▸ List.mem_cons_self)
    cases hdigit
  have hvalue : ofDigits 10 ((Nat.toDigits 10 n).map fun c => c.toNat - '0'.toNat) = n := by
    rw [ofDigits, List.foldl_map]
    simp only [Nat.mul_comm _ 10]
    rw [← Nat.ofDigitChars_eq_foldl, Nat.ofDigitChars_toDigits (by decide) (by decide)]
  have hvalues : (Nat.toDigits 10 n).mapM (digitValue? 10)
      = some ((Nat.toDigits 10 n).map fun c => c.toNat - '0'.toNat) :=
    mapM_eq_some_of_forall fun _ hc => digitValue?_ten (isDigit_of_mem_toDigits hc)
  have hne : ((Nat.toDigits 10 n).map fun c => c.toNat - '0'.toNat) ≠ [] := by simp
  rw [parse?.eq_2 _ _ _ hsign, hvalues, Option.bind_eq_bind, Option.bind_some,
    if_neg (by rwa [List.isEmpty_iff]), hvalue, if_pos h]

/-- Only zero has a zero in front. -/
theorem head?_toDigits {n : Nat} (h : (Nat.toDigits 10 n).head? = some '0') :
  n = 0
  := by
  induction n using Nat.strongRecOn with
  | ind n ih =>
    rw [Nat.toDigits_eq_if (by decide)] at h
    split at h
    · simpa using h
    · next hge =>
      obtain ⟨d, ds, hds⟩ := List.exists_cons_of_ne_nil (@Nat.toDigits_ne_nil (n / 10) 10)
      have hhead : (Nat.toDigits 10 (n / 10)).head? = some '0' := by
        rw [hds] at h ⊢
        exact h
      have hzero := ih (n / 10) (by omega) hhead
      omega

end Bitcoin.Numeral

/-! ### Numbers as bytes -/

namespace Bitcoin.Bytes

/-- Bytes are digits to the base 256. -/
theorem toNatBE_eq_ofDigits (bytes : Bytes) :
  toNatBE bytes = Numeral.ofDigits 256 (bytes.map UInt8.toNat)
  := by
  rw [toNatBE, Numeral.ofDigits, List.foldl_map]

/-- The digits of a number in base 256, as bytes, denote it. -/
theorem toNatBE_map_digits (n : Nat) :
  toNatBE ((Numeral.digits 256 n).map UInt8.ofNat) = n
  := by
  have hdigits : ((Numeral.digits 256 n).map UInt8.ofNat).map UInt8.toNat
      = Numeral.digits 256 n := by
    rw [List.map_map]
    have hbyte : ∀ d ∈ Numeral.digits 256 n, (UInt8.ofNat d).toNat = d :=
      fun d hd => UInt8.toNat_ofNat_of_lt' (Numeral.lt_of_mem_digits (by decide) hd)
    apply (List.map_congr_left hbyte).trans (List.map_id _)
  rw [toNatBE_eq_ofDigits, hdigits, Numeral.ofDigits_digits (by decide)]

end Bitcoin.Bytes
