import Bitcoin.Proofs.Signature.Der

/-!
# Reading signatures at positions

`Signature.readDer` reads the distinguished encoding of a signature byte by byte, at positions that
it computes from lengths in the encoding. Where a position is outside of the encoding it has no
result at all (`Access`). But each position is checked before it is read at: `Signature.readDer` has
the result of `Signature.ofDer` for every byte string (`Signature.readDer_eq`).
-/

namespace Bitcoin

/-- A computation that reads at positions. It has a value or fails with an error, or it has no
result because a position is outside of the bytes. -/
abbrev Access := ExceptT Error Option

namespace Access

variable {α β : Type}

/-- The value or the error of an operation that reads nothing. -/
def result (x : Except Error α) : Access α := ExceptT.mk (some x)

/-- The byte at a position. -/
def byteAt (bytes : Bytes) (position : Nat) : Access UInt8 := ExceptT.lift bytes[position]?

/-- The bytes between two positions. -/
def slice (bytes : Bytes) (first past : Nat) : Access Bytes :=
  if first ≤ past ∧ past ≤ bytes.length then return (bytes.take past).drop first
  else ExceptT.lift none

/-- Accesses that are checked follow each other as the results do. -/
theorem result_bind (x : Except Error α) (f : α → Except Error β) :
  (result x >>= fun a => result (f a)) = result (x >>= f)
  := by
  cases x <;> rfl

/-- What fails under a condition may read within bounds only where the condition does not hold. -/
theorem result_ite {c : Prop} [Decidable c] {x y : Except Error α} {z : Access α}
    (h : ¬ c → z = result y) :
  (if c then result x else z) = result (if c then x else y)
  := by
  split
  · rfl
  · next hc => exact h hc

/-- A byte that is there may be accessed. -/
theorem byteAt_eq {bytes : Bytes} {position : Nat} {byte : UInt8}
    (h : bytes[position]? = some byte) :
  byteAt bytes position = pure byte
  := by
  rw [byteAt, h]
  rfl

/-- A slice that lies within the bytes may be accessed. -/
theorem slice_eq {bytes : Bytes} {first past : Nat} (hfirst : first ≤ past)
    (hpast : past ≤ bytes.length) :
  slice bytes first past = pure ((bytes.take past).drop first)
  := if_pos ⟨hfirst, hpast⟩

end Access

namespace Signature

open Access

/-- Reads whether the bytes of an integer begin with a zero that is not its sign. The second byte is
looked at only if there is one. -/
def readPadded (bytes : Bytes) (first : UInt8) : Access Bool :=
  if bytes.length > 1 ∧ first = 0 then do
    let second ← byteAt bytes 1
    return decide (second < 0x80)
  else return false

/-- Reads the scalar whose bytes as an integer are given. -/
def readInteger (bytes : Bytes) : Access NonzeroScalar := do
  let first ← byteAt bytes 0
  if first ≥ 0x80 then result (derError .negative)
  else
    let padded ← readPadded bytes first
    if padded then result (derError .padded)
    else
      let digits ← slice bytes (if first = 0 then 1 else 0) bytes.length
      match Scalar.ofBytesUpTo32 digits with
      | .error _ => result (derError .outOfRange)
      | .ok k => result (if h : k ≠ 0 then .ok ⟨k, h⟩ else derError .zero)

/-- Reads the two integers of a signature, the first of which has a given length. -/
def readIntegers (bytes : Bytes) (length : Nat) : Access Signature := do
  let rBytes ← slice bytes 4 (4 + length)
  let r ← readInteger rBytes
  let mark ← byteAt bytes (4 + length)
  if mark ≠ 0x02 then result (derError .noSecondInteger)
  else
    let sLength ← byteAt bytes (5 + length)
    if sLength = 0 ∨ 6 + length + sLength.toNat ≠ bytes.length then
      result (derError .secondLength)
    else
      let sBytes ← slice bytes (6 + length) bytes.length
      let s ← readInteger sBytes
      result (.ok ⟨r, s, none⟩)

/-- Reads the signature that an encoding denotes. -/
def readDer (bytes : Bytes) : Access Signature :=
  if bytes.length < 8 then result (derError .tooShort)
  else do
    let mark ← byteAt bytes 0
    if mark ≠ 0x30 then result (derError .noSequence)
    else
      let length ← byteAt bytes 1
      if length.toNat ≠ bytes.length - 2 then result (derError .sequenceLength)
      else
        let rMark ← byteAt bytes 2
        if rMark ≠ 0x02 then result (derError .noFirstInteger)
        else
          let rLength ← byteAt bytes 3
          if rLength = 0 ∨ rLength.toNat > bytes.length - 7 then result (derError .firstLength)
          else readIntegers bytes rLength.toNat

theorem readPadded_eq (first : UInt8) (rest : Bytes) :
  readPadded (first :: rest) first
    = pure (decide ((first :: rest).length > 1 ∧ first = 0 ∧ rest.headD 0 < 0x80))
  := by
  rw [readPadded]
  cases rest with
  | nil => rfl
  | cons second rest =>
    by_cases hfirst : first = 0
    · rw [if_pos ⟨by simp, hfirst⟩, byteAt_eq rfl, pure_bind]
      simp [hfirst]
    · rw [if_neg fun h => hfirst h.2]
      simp [hfirst]

/-- The bytes of an integer, if there are any, are read within their bounds. -/
theorem readInteger_eq {bytes : Bytes} (h : bytes ≠ []) :
  readInteger bytes = result (ofIntegerBytes bytes)
  := by
  obtain ⟨first, rest, rfl⟩ := List.exists_cons_of_ne_nil h
  have hdigits : slice (first :: rest) (if first = 0 then 1 else 0) (first :: rest).length
      = pure (if first = 0 then rest else first :: rest) := by
    rw [slice_eq (by split <;> simp) (Nat.le_refl _), List.take_length]
    split <;> rfl
  rw [readInteger, byteAt_eq rfl, pure_bind, ofIntegerBytes, List.headD_cons, List.tail_cons]
  apply result_ite
  intro _
  rw [readPadded_eq, pure_bind]
  simp only [decide_eq_true_eq]
  apply result_ite
  intro _
  rw [hdigits, pure_bind]
  cases Scalar.ofBytesUpTo32 (if first = 0 then rest else first :: rest) <;> rfl

/-- Where there are enough bytes, a part stands in front of two bytes and some others. -/
theorem exists_parts {body : Bytes} {n : Nat} (h : n + 2 < body.length) :
  ∃ front mark length rest, body = front ++ mark :: length :: rest ∧ front.length = n ∧ rest ≠ []
  := by
  have hlength : (body.drop n).length = body.length - n := List.length_drop
  have hbody := (List.take_append_drop n body).symm
  rcases hdrop : body.drop n with _ | ⟨mark, _ | ⟨length, rest⟩⟩
  · simp only [hdrop, List.length_nil] at hlength
    omega
  · simp only [hdrop, List.length_cons, List.length_nil] at hlength
    omega
  · rw [hdrop] at hbody
    refine ⟨body.take n, mark, length, rest, hbody, ?_, ?_⟩
    · rw [List.length_take]
      omega
    · rintro rfl
      simp only [hdrop, List.length_cons, List.length_nil] at hlength
      omega

/-- An integer that is read within its bounds goes into what follows. -/
theorem readInteger_bind {α : Type} {bytes : Bytes} (h : bytes ≠ [])
    {f : NonzeroScalar → Access α} {g : NonzeroScalar → Except Error α}
    (hfg : ∀ k, f k = result (g k)) :
  (readInteger bytes >>= f) = result (ofIntegerBytes bytes >>= g)
  := by
  rw [readInteger_eq h, ← result_bind]
  apply congrArg
  funext k
  apply hfg k

/-- The two integers are read within the bounds of the encoding. -/
theorem readIntegers_eq {header rBytes sBytes : Bytes} {sMark sLength : UInt8}
    (hheader : header.length = 4) (hr : rBytes ≠ []) (hs : sBytes ≠ []) :
  readIntegers (header ++ (rBytes ++ sMark :: sLength :: sBytes)) rBytes.length
    = result (do
      let r ← ofIntegerBytes rBytes
      if sMark ≠ 0x02 then derError .noSecondInteger
      else if sLength = 0 ∨ sBytes.length ≠ sLength.toNat then derError .secondLength
      else do
        let s ← ofIntegerBytes sBytes
        .ok ⟨r, s, none⟩)
  := by
  have hlength : (header ++ (rBytes ++ sMark :: sLength :: sBytes)).length
      = 6 + rBytes.length + sBytes.length := by
    simp only [List.length_append, List.length_cons]
    omega
  have hrBytes : slice (header ++ (rBytes ++ sMark :: sLength :: sBytes)) 4 (4 + rBytes.length)
      = pure rBytes := by
    rw [slice_eq (by omega) (by omega), ← hheader, List.take_length_add_append, List.take_left,
      List.drop_left]
  have hsBytes : slice (header ++ (rBytes ++ sMark :: sLength :: sBytes)) (6 + rBytes.length)
      (6 + rBytes.length + sBytes.length) = pure sBytes := by
    rw [slice_eq (by omega) (by omega), ← hlength, List.take_length,
      show 6 + rBytes.length = header.length + (rBytes.length + 2) by omega,
      List.drop_length_add_append, List.drop_length_add_append]
    rfl
  have hsMark : (header ++ (rBytes ++ sMark :: sLength :: sBytes))[4 + rBytes.length]?
      = some sMark := by
    rw [← hheader, List.getElem?_append_right (by omega), Nat.add_sub_cancel_left,
      List.getElem?_append_right (by omega), Nat.sub_self]
    rfl
  have hsLength : (header ++ (rBytes ++ sMark :: sLength :: sBytes))[5 + rBytes.length]?
      = some sLength := by
    rw [List.getElem?_append_right (by omega), List.getElem?_append_right (by omega), hheader,
      show 5 + rBytes.length - 4 - rBytes.length = 1 by omega]
    rfl
  have htotal : 6 + rBytes.length + sLength.toNat ≠ 6 + rBytes.length + sBytes.length
      ↔ sBytes.length ≠ sLength.toNat := by
    omega
  rw [readIntegers, hrBytes, pure_bind]
  apply readInteger_bind hr
  intro r
  rw [byteAt_eq hsMark, pure_bind]
  apply result_ite
  intro _
  rw [byteAt_eq hsLength, pure_bind, hlength]
  simp only [htotal]
  apply result_ite
  intro _
  rw [hsBytes, pure_bind]
  exact readInteger_bind hs fun s => rfl

/-- Each position is within the bounds of the encoding. -/
theorem readDer_eq (bytes : Bytes) :
  readDer bytes = result (ofDer bytes)
  := by
  rw [readDer, ofDer.eq_def]
  split
  · split <;> rfl
  · next hshort =>
    split
    · next mark length rMark rLength body =>
      rw [byteAt_eq rfl, pure_bind]
      apply result_ite
      intro _
      rw [byteAt_eq rfl, pure_bind]
      apply result_ite
      intro _
      rw [byteAt_eq rfl, pure_bind]
      apply result_ite
      intro _
      rw [byteAt_eq rfl, pure_bind]
      apply result_ite
      intro hrange
      obtain ⟨hzero, hle⟩ := not_or.mp hrange
      simp only [List.length_cons] at hshort hle
      obtain ⟨rBytes, sMark, sLength, sBytes, rfl, hlength, hs⟩ :=
        @exists_parts body rLength.toNat (by omega)
      have hr : rBytes ≠ [] := by
        rintro rfl
        apply hzero (UInt8.toNat_inj.mp hlength.symm)
      rw [← hlength, List.take_left, List.drop_left]
      exact @readIntegers_eq [mark, length, rMark, rLength] _ _ _ _ rfl hr hs
    · next hnone =>
      -- Four bytes stand in front of the others.
      rcases bytes with _ | ⟨mark, _ | ⟨length, _ | ⟨rMark, _ | ⟨rLength, body⟩⟩⟩⟩
      case cons.cons.cons.cons => exact (hnone mark length rMark rLength body rfl).elim
      all_goals
        apply absurd _ hshort
        simp

/-- A signature is read from its encoding, without the recovery id, and from no other bytes.
Whatever the bytes are, they are read within their bounds. -/
theorem ofDer_strict :
  (∀ signature : Signature,
      ofDer signature.toDer = .ok ⟨signature.r, signature.s, none⟩)
    ∧ (∀ (bytes : Bytes) (signature : Signature), ofDer bytes = .ok signature
      ↔ signature.toDer = bytes ∧ signature.recoveryId = none)
    ∧ ∀ bytes : Bytes, (readDer bytes).run = some (ofDer bytes)
  := by
  refine ⟨ofDer_toDer, fun _ _ => ofDer_eq_ok_iff, fun bytes => ?_⟩
  rw [readDer_eq]
  rfl

end Signature

end Bitcoin
