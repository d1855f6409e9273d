import Bitcoin.Base58
import Bitcoin.Proofs.Bytes
import Bitcoin.Proofs.Except
import Bitcoin.Proofs.Text.Alphabet
import Bitcoin.Proofs.Text.Numeral

/-!
# Base58 text is read back

A byte string is zeros in front of the digits of a number in base 256, and its symbols are as many
zeros in front of the digits of the same number in base 58. So the byte string is read back from its
symbols (`Base58.decodeChars_encodeChars`), and a payload from its Base58Check form
(`Base58.decodeChecked_encodeChecked`). No other text denotes the payload
(`Base58.encodeChecked_of_decodeChecked`).
-/

namespace Bitcoin

open Numeral

/-- A byte string without a zero in front is made of the digits of its number. -/
theorem Bytes.map_digits_toNatBE {bytes : Bytes} (h : ∀ b ∈ bytes.head?, b ≠ 0) :
  (digits 256 (toNatBE bytes)).map UInt8.ofNat = bytes
  := by
  have hlt : ∀ d ∈ bytes.map UInt8.toNat, d < 256 := by
    intro d hd
    obtain ⟨b, _, rfl⟩ := List.mem_map.mp hd
    apply b.toNat_lt
  have hhead : ∀ d ∈ (bytes.map UInt8.toNat).head?, d ≠ 0 := by
    intro d hd hzero
    rw [List.head?_map] at hd
    obtain ⟨b, hb, rfl⟩ := Option.map_eq_some_iff.mp hd
    apply h b hb (UInt8.toNat_inj.mp hzero)
  have hid : UInt8.ofNat ∘ UInt8.toNat = id := funext fun _ => UInt8.ofNat_toNat
  rw [toNatBE_eq_ofDigits, digits_ofDigits (by decide) hlt hhead, List.map_map, hid, List.map_id]

/-- Zeros in front of a list that does not begin with one are taken from it. -/
theorem takeWhile_replicate_append {α : Type} [DecidableEq α] {zero : α} (k : Nat) {rest : List α}
    (h : ∀ a ∈ rest.head?, a ≠ zero) :
  (List.replicate k zero ++ rest).takeWhile (· == zero) = List.replicate k zero
  := by
  rw [List.takeWhile_append_of_pos (by simp)]
  cases rest with
  | nil => simp
  | cons a rest =>
    have ha : a ≠ zero := h a rfl
    simp [ha]

namespace Base58

/-- The value of a symbol is the digit that it stands for. -/
theorem value?_symbol {n : Nat} (h : n < 58) :
  value? (symbol n) = some n
  := (Text.findIdx?_eq_some_iff_of_nodup (by decide)).mpr ⟨h, rfl⟩

/-- Symbols have their values. -/
theorem values_map_symbol {ds : List Nat} (h : ∀ d ∈ ds, d < 58) (index : Nat) :
  values index (ds.map symbol) = .ok ds
  := by
  induction ds generalizing index with
  | nil => rfl
  | cons d ds ih =>
    obtain ⟨hd, hds⟩ := List.forall_mem_cons.mp h
    rw [List.map_cons, values, value?_symbol hd]
    dsimp only
    rw [bind_of_eq_ok (ih hds _)]

section Zeros

variable (k : Nat) {rest : Bytes} (h : ∀ b ∈ rest.head?, b ≠ 0)

include h

/-- As many zeros are written as stand in front of the bytes. -/
theorem encodeChars_replicate_append :
  encodeChars (List.replicate k 0 ++ rest)
    = (List.replicate k 0 ++ digits 58 (Bytes.toNatBE rest)).map symbol
  := by
  rw [encodeChars, takeWhile_replicate_append k h, Bytes.toNatBE_replicate_append, List.map_append,
    List.map_replicate, List.map_replicate]
  rfl

/-- Zeros in front are written as so many first symbols, and are read back. -/
theorem decodeChars_zeros :
  decodeChars ((List.replicate k 0 ++ digits 58 (Bytes.toNatBE rest)).map symbol)
    = .ok (List.replicate k 0 ++ rest)
  := by
  have hlt : ∀ d ∈ List.replicate k 0 ++ digits 58 (Bytes.toNatBE rest), d < 58 := by
    rw [List.forall_mem_append]
    refine ⟨fun d hd => ?_, fun d => lt_of_mem_digits (by decide)⟩
    rw [List.eq_of_mem_replicate hd]
    decide
  rw [decodeChars, bind_of_eq_ok (values_map_symbol hlt 0),
    takeWhile_replicate_append k fun _ => head?_digits_ne (by decide), List.map_replicate,
    ofDigits_replicate_append, ofDigits_digits (by decide), Bytes.map_digits_toNatBE h]

end Zeros

/-- A byte string is read back from its symbols. -/
theorem decodeChars_encodeChars (bytes : Bytes) :
  decodeChars (encodeChars bytes) = .ok bytes
  := by
  obtain ⟨k, hk⟩ := Bytes.exists_replicate_trimZeros bytes
  have hhead : ∀ b ∈ (Bytes.trimZeros bytes).head?, b ≠ 0 := by
    intro b hb
    obtain ⟨rest, hrest⟩ := List.head?_eq_some_iff.mp hb
    apply Bytes.head_trimZeros_ne hrest
  rw [hk, encodeChars_replicate_append k hhead, decodeChars_zeros k hhead]

/-! ### Only one text denotes a payload -/

/-- Only symbols have values. -/
theorem symbol_of_value? {c : Char} {n : Nat} (h : value? c = some n) :
  n < 58 ∧ symbol n = c
  := (Text.findIdx?_eq_some_iff_of_nodup (by decide)).mp h

/-- A text whose values are all found is made of their symbols. -/
theorem map_symbol_of_values {text : List Char} {vs : List Nat} {index : Nat}
    (h : values index text = .ok vs) :
  (∀ v ∈ vs, v < 58) ∧ vs.map symbol = text
  := by
  induction text generalizing vs index with
  | nil =>
    cases h
    exact ⟨List.forall_mem_nil _, rfl⟩
  | cons c text ih =>
    rw [values] at h
    split at h
    · next v hv =>
      obtain ⟨later, hlater, h⟩ := bind_eq_ok_iff.mp h
      cases h
      obtain ⟨hlt, rfl⟩ := symbol_of_value? hv
      obtain ⟨hall, rfl⟩ := ih hlater
      exact ⟨List.forall_mem_cons.mpr ⟨hlt, hall⟩, rfl⟩
    · cases h

/-- Values are some zeros and what does not begin with one. -/
theorem exists_replicate_append (vs : List Nat) :
  ∃ k rest, vs = List.replicate k 0 ++ rest ∧ ∀ v ∈ rest.head?, v ≠ 0
  := by
  induction vs with
  | nil => exact ⟨0, [], rfl, nofun⟩
  | cons v vs ih =>
    by_cases hv : v = 0
    · obtain ⟨k, rest, rfl, hrest⟩ := ih
      exact ⟨k + 1, rest, hv ▸ rfl, hrest⟩
    · refine ⟨0, v :: vs, rfl, ?_⟩
      rintro _ ⟨⟩
      exact hv

/-- The symbols of what a text denotes are the text. -/
theorem encodeChars_of_decodeChars {text : List Char} {bytes : Bytes}
    (h : decodeChars text = .ok bytes) :
  encodeChars bytes = text
  := by
  obtain ⟨vs, hvs, h⟩ := bind_eq_ok_iff.mp h
  cases h
  obtain ⟨hlt, rfl⟩ := map_symbol_of_values hvs
  obtain ⟨k, rest, rfl, hrest⟩ := exists_replicate_append vs
  have hhead : ∀ b ∈ ((digits 256 (ofDigits 58 rest)).map UInt8.ofNat).head?, b ≠ 0 := by
    intro b hb hzero
    rw [List.head?_map] at hb
    obtain ⟨d, hd, rfl⟩ := Option.map_eq_some_iff.mp hb
    have hlt : d < 256 := lt_of_mem_digits (by decide) (List.mem_of_mem_head? hd)
    apply head?_digits_ne (by decide) hd
    rw [← UInt8.toNat_ofNat_of_lt' hlt, hzero]
    rfl
  rw [takeWhile_replicate_append k hrest, List.map_replicate, ofDigits_replicate_append,
    encodeChars_replicate_append k hhead, Bytes.toNatBE_map_digits,
    digits_ofDigits (by decide) (List.forall_mem_append.mp hlt).2 hrest]

theorem length_checksum (payload : Bytes) :
  (checksum payload).length = 4
  := by
  rw [checksum, List.length_take, FixedBytes.length_eq]
  rfl

/-- A payload is read back from its Base58Check form. -/
theorem decodeChecked_encodeChecked (payload : Bytes) :
  decodeChecked (encodeChecked payload) = .ok payload
  := by
  have hchecksum := length_checksum payload
  have hlength : (payload ++ checksum payload).length - 4 = payload.length := by
    rw [List.length_append]
    omega
  have hlong : ¬ (payload ++ checksum payload).length < 4 := by
    rw [List.length_append]
    omega
  rw [decodeChecked, encodeChecked, String.toList_ofList,
    bind_of_eq_ok (decodeChars_encodeChars _), if_neg hlong, hlength, List.take_left,
    List.drop_left, if_pos rfl]

/-- The Base58Check form of what a text denotes is the text. -/
theorem encodeChecked_of_decodeChecked {text : String} {payload : Bytes}
    (h : decodeChecked text = .ok payload) :
  encodeChecked payload = text
  := by
  obtain ⟨bytes, hbytes, h⟩ := bind_eq_ok_iff.mp h
  split at h
  · cases h
  · dsimp only at h
    split at h
    · next hchecksum =>
      cases h
      rw [encodeChecked, hchecksum, List.take_append_drop, encodeChars_of_decodeChars hbytes,
        String.ofList_toList]
    · cases h

end Base58

end Bitcoin
