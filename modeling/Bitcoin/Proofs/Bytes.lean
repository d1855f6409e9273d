import Bitcoin.Bytes
import Mathlib.Data.List.TakeWhile
import Mathlib.Tactic.Ring

/-!
# Numbers as byte strings

Writing a number in a given width and reading it back gives its residue, and reading a byte
string and writing the number in the same width gives the byte string. The byte strings
that do not begin with a zero are those that `Bytes.trimZeros` leaves of a number.
-/

namespace Bitcoin.Bytes

/-- Writing a number to some bytes keeps its residue. -/
theorem toNatLE_ofNatLE (width n : Nat) :
  toNatLE (ofNatLE width n) = n % 256 ^ width
  := by
  induction width generalizing n with
  | zero => rw [ofNatLE, toNatLE, pow_zero, Nat.mod_one]
  | succ width ih =>
    rw [ofNatLE, toNatLE, ih, UInt8.toNat_ofNat', pow_succ' 256 width, Nat.mod_mul]

theorem toNatLE_ofNatLE_of_lt {width n : Nat} (h : n < 256 ^ width) :
  toNatLE (ofNatLE width n) = n
  := by
  rw [toNatLE_ofNatLE, Nat.mod_eq_of_lt h]

/-- Bytes denote a number that fits into them. -/
theorem toNatLE_lt (bytes : Bytes) :
  toNatLE bytes < 256 ^ bytes.length
  := by
  induction bytes with
  | nil => decide
  | cons b rest ih =>
    have hb := b.toNat_lt
    rw [toNatLE, List.length_cons, pow_succ]
    omega

/-- Bytes are written again when their number is. -/
theorem ofNatLE_toNatLE (bytes : Bytes) :
  ofNatLE bytes.length (toNatLE bytes) = bytes
  := by
  induction bytes with
  | nil => rfl
  | cons b rest ih =>
    have hb := b.toNat_lt
    rw [toNatLE, List.length_cons, ofNatLE]
    congr 1
    · apply UInt8.toNat_inj.mp
      rw [UInt8.toNat_ofNat']
      omega
    · have e : (b.toNat + 256 * toNatLE rest) / 256 = toNatLE rest := by omega
      rw [e, ih]

/-! ### The most significant byte first -/

/-- The front of a byte string counts for more than what stands behind it. -/
theorem toNatBE_append (a b : Bytes) :
  toNatBE (a ++ b) = toNatBE a * 256 ^ b.length + toNatBE b
  := by
  have hfold : ∀ n : Nat, b.foldl (fun n b => n * 256 + b.toNat) n
      = n * 256 ^ b.length + toNatBE b := by
    rw [toNatBE]
    induction b with
    | nil => simp
    | cons c rest ih =>
      intro n
      rw [List.foldl_cons, List.foldl_cons, ih, ih (0 * 256 + c.toNat), List.length_cons]
      ring
  rw [toNatBE, List.foldl_append, hfold]
  rfl

theorem toNatBE_cons (b : UInt8) (rest : Bytes) :
  toNatBE (b :: rest) = b.toNat * 256 ^ rest.length + toNatBE rest
  := by
  have h := toNatBE_append [b] rest
  have hb : toNatBE [b] = b.toNat := by simp [toNatBE]
  rwa [hb] at h

/-- The two orders of bytes are the reverse of one another. -/
theorem toNatBE_reverse (bytes : Bytes) :
  toNatBE bytes.reverse = toNatLE bytes
  := by
  induction bytes with
  | nil => rfl
  | cons b rest ih =>
    have hb : toNatBE [b] = b.toNat := by simp [toNatBE]
    rw [List.reverse_cons, toNatBE_append, ih, hb, toNatLE, List.length_singleton, pow_one]
    ring

/-- A number that fits into some bytes is read back from them. -/
theorem toNatBE_ofNatBE_of_lt {width n : Nat} (h : n < 256 ^ width) :
  toNatBE (ofNatBE width n) = n
  := by
  rw [ofNatBE, toNatBE_reverse, toNatLE_ofNatLE_of_lt h]

theorem toNatBE_lt (bytes : Bytes) :
  toNatBE bytes < 256 ^ bytes.length
  := by
  have h := toNatLE_lt bytes.reverse
  rwa [List.length_reverse, ← toNatBE_reverse, List.reverse_reverse] at h

/-- Bytes are written again when their number is, in this order, too. -/
theorem ofNatBE_toNatBE (bytes : Bytes) :
  ofNatBE bytes.length (toNatBE bytes) = bytes
  := by
  have h := ofNatLE_toNatLE bytes.reverse
  rw [List.length_reverse, ← toNatBE_reverse, List.reverse_reverse] at h
  rw [ofNatBE, h, List.reverse_reverse]

/-- Zeros in front do not change the number. -/
theorem toNatBE_replicate_append (k : Nat) (bytes : Bytes) :
  toNatBE (List.replicate k 0 ++ bytes) = toNatBE bytes
  := by
  induction k with
  | zero => rfl
  | succ k ih =>
    rw [List.replicate_succ, List.cons_append, toNatBE_cons, ih]
    simp

/-- A number is written in a greater width behind zeros. -/
theorem ofNatBE_toNatBE_of_le {width : Nat} {bytes : Bytes} (h : bytes.length ≤ width) :
  ofNatBE width (toNatBE bytes) = List.replicate (width - bytes.length) 0 ++ bytes
  := by
  have hlength : (List.replicate (width - bytes.length) 0 ++ bytes).length = width := by
    rw [List.length_append, List.length_replicate]
    omega
  have e := ofNatBE_toNatBE (List.replicate (width - bytes.length) 0 ++ bytes)
  rwa [hlength, toNatBE_replicate_append] at e

/-- All zeros in front are trimmed. -/
theorem trimZeros_replicate_append (k : Nat) (bytes : Bytes) :
  trimZeros (List.replicate k 0 ++ bytes) = trimZeros bytes
  := by
  induction k with
  | zero => rfl
  | succ k ih =>
    rwa [List.replicate_succ, List.cons_append, trimZeros, List.dropWhile_cons_of_pos rfl]

theorem trimZeros_of_head_ne {b : UInt8} (h : b ≠ 0) (rest : Bytes) :
  trimZeros (b :: rest) = b :: rest
  := by
  rw [trimZeros, List.dropWhile_cons_of_neg]
  simpa using h

/-- A byte string is zeros and what is left without them. -/
theorem exists_replicate_trimZeros (bytes : Bytes) :
  ∃ k, bytes = List.replicate k 0 ++ trimZeros bytes
  := by
  induction bytes with
  | nil => exact ⟨0, rfl⟩
  | cons b rest ih =>
    by_cases hb : b = 0
    · obtain ⟨k, hk⟩ := ih
      use k + 1
      have e : trimZeros (b :: rest) = trimZeros rest := by
        rw [trimZeros, List.dropWhile_cons_of_pos (by simpa using hb)]
        rfl
      rw [e, List.replicate_succ, List.cons_append, ← hk, hb]
    · exact ⟨0, (trimZeros_of_head_ne hb rest).symm⟩

/-- What is left of a byte string does not begin with a zero. -/
theorem head_trimZeros_ne {bytes : Bytes} {b : UInt8} {rest : Bytes}
    (h : trimZeros bytes = b :: rest) :
  b ≠ 0
  := by
  rw [trimZeros] at h
  have hhead := List.head?_dropWhile_not (fun b : UInt8 => b == 0) bytes
  rw [h] at hhead
  simpa using hhead

/-- Trimming zeros does not change the number. -/
theorem toNatBE_trimZeros (bytes : Bytes) :
  toNatBE (trimZeros bytes) = toNatBE bytes
  := by
  obtain ⟨k, hk⟩ := exists_replicate_trimZeros bytes
  conv_rhs => rw [hk, toNatBE_replicate_append]

theorem length_trimZeros_le (bytes : Bytes) :
  (trimZeros bytes).length ≤ bytes.length
  := List.length_dropWhile_le _ _

/-- A byte string without a zero in front is what is left of its number. -/
theorem trimZeros_ofNatBE_toNatBE {width : Nat} {b : UInt8} {rest : Bytes}
    (h : (b :: rest).length ≤ width) (hb : b ≠ 0) :
  trimZeros (ofNatBE width (toNatBE (b :: rest))) = b :: rest
  := by
  rw [ofNatBE_toNatBE_of_le h, trimZeros_replicate_append, trimZeros_of_head_ne hb]

end Bitcoin.Bytes

namespace Bitcoin.FixedBytes

theorem toList_inj {n : Nat} {a b : FixedBytes n} :
  a.toList = b.toList ↔ a = b
  := by
  cases a
  cases b
  rw [mk.injEq]

end Bitcoin.FixedBytes

/-! ### Byte strings of a fixed length -/

namespace Bitcoin.FixedBytes

variable {n : Nat}

theorem ofList?_toList (bytes : FixedBytes n) :
  ofList? bytes.toList = some bytes
  := dif_pos bytes.length_eq

/-- A byte string of a fixed length is made of exactly its bytes. -/
theorem ofList?_eq_some_iff {bytes : Bytes} {fixed : FixedBytes n} :
  ofList? bytes = some fixed ↔ fixed.toList = bytes
  := by
  constructor
  · intro h
    rw [ofList?] at h
    split at h
    · cases h
      rfl
    · cases h
  · rintro rfl
    apply ofList?_toList

end Bitcoin.FixedBytes
