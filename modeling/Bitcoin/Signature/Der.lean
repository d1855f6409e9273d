import Bitcoin.Signature.Basic

/-!
# The distinguished encoding of signatures

A signature is written as a sequence of two integers: `0x30`, a length, and for each
integer `0x02`, a length and the fewest bytes that show its value and that it is not
negative. `Signature.ofDer` accepts exactly the bytes that `Signature.toDer` writes.
-/

namespace Bitcoin.Signature

/-- The fewest bytes of a positive integer, in front of which a zero stands if the first
one would make it negative. -/
def integerBytes (k : NonzeroScalar) : Bytes :=
  match k.val.toBytes.toList.trimZeros with
  | [] => [0]
  | first :: rest => if first ≥ 0x80 then 0 :: first :: rest else first :: rest

/-- The encoding of a signature, without its recovery id. -/
def toDer (signature : Signature) : Bytes :=
  let r := integerBytes signature.r
  let s := integerBytes signature.s
  0x30 :: UInt8.ofNat (4 + r.length + s.length)
    :: 0x02 :: UInt8.ofNat r.length :: (r ++ 0x02 :: UInt8.ofNat s.length :: s)

/-- A refusal of an encoding. -/
def derError {α : Type} (fault : DerFault) : Except Error α :=
  .error (.domain (.der fault))

/-- The scalar whose bytes as an integer are given. -/
def ofIntegerBytes (bytes : Bytes) : Except Error NonzeroScalar :=
  if bytes.headD 0 ≥ 0x80 then derError .negative
  else if bytes.length > 1 ∧ bytes.headD 0 = 0 ∧ bytes.tail.headD 0 < 0x80 then
    derError .padded
  else
    match Scalar.ofBytesUpTo32 (if bytes.headD 0 = 0 then bytes.tail else bytes) with
    | .error _ => derError .outOfRange
    | .ok k => if h : k ≠ 0 then .ok ⟨k, h⟩ else derError .zero

/-- The signature that an encoding denotes. -/
def ofDer (bytes : Bytes) : Except Error Signature :=
  match bytes with
  | mark :: length :: rMark :: rLength :: body =>
    if bytes.length < 8 then derError .tooShort
    else if mark ≠ 0x30 then derError .noSequence
    else if length.toNat ≠ bytes.length - 2 then derError .sequenceLength
    else if rMark ≠ 0x02 then derError .noFirstInteger
    else if rLength = 0 ∨ rLength.toNat > bytes.length - 7 then derError .firstLength
    else do
      let r ← ofIntegerBytes (body.take rLength.toNat)
      match body.drop rLength.toNat with
      | sMark :: sLength :: sBytes =>
        if sMark ≠ 0x02 then derError .noSecondInteger
        else if sLength = 0 ∨ sBytes.length ≠ sLength.toNat then derError .secondLength
        else do
          let s ← ofIntegerBytes sBytes
          .ok ⟨r, s, none⟩
      | _ => derError .tooShort
  | _ => derError .tooShort

/-- The signature whose encoding is given in hexadecimal. -/
def ofHex (text : String) : Except Error Signature := do
  let bytes ← decodeHex text
  ofDer bytes

/-- A signature in displayed form. -/
def display (signature : Signature) : String :=
  let id := match signature.recoveryId with
    | none => "None"
    | some id => "Some(" ++ toString id.val ++ ")"
  "Signature \x7b der: \"" ++ Hex.encode signature.toDer ++ "\", recovery_id: " ++ id ++ " \x7d"

end Bitcoin.Signature
