import Bitcoin.Error

/-!
# Pushes

A `Push` is data together with the form in which a script writes it. `Push.ofData` chooses
the shortest form. In text the data stands behind `0x`; a form that is longer than
necessary is written out, with the length, in front of it.
-/

namespace Bitcoin

/-- Data that a script pushes, and how it is written. -/
structure Push where
  /-- How the length is written. -/
  kind : PushKind
  /-- What is pushed. -/
  data : Bytes
deriving DecidableEq

namespace Push

/-- The shortest push of a byte string that is not empty. -/
def ofData (data : Bytes) : Except Error Push :=
  if data.isEmpty then .error (.parsing .emptyPush)
  else .ok ⟨PushKind.smallest data.length, data⟩

/-- The push of a byte string in a given form. -/
def ofKind (kind : PushKind) (data : Bytes) : Except Error Push :=
  if data.length > kind.capacity ∨ (kind = .inline ∧ data.isEmpty) then
    .error (.parsing (.pushCapacity data.length kind))
  else .ok ⟨kind, data⟩

/-- Whether no shorter form could be used. -/
def isMinimal (push : Push) : Bool :=
  !push.data.isEmpty && push.kind == PushKind.smallest push.data.length

/-- The bytes in front of the data. -/
def heading (push : Push) : Bytes :=
  match push.kind.opcode? with
  | none => [UInt8.ofNat push.data.length]
  | some op => op.toByte :: Bytes.ofNatLE push.kind.lengthWidth push.data.length

/-- The bytes of a push. -/
def encode (push : Push) : Bytes :=
  push.heading ++ push.data

/-- The text of a push. -/
def text (push : Push) : String :=
  let data := "0x" ++ Hex.encode push.data
  if push.isMinimal then data
  else match push.kind.opcode? with
    | none => data
    | some op =>
      op.name ++ " 0x" ++ Numeral.hex (2 * push.kind.lengthWidth) push.data.length ++ " " ++ data

end Push

end Bitcoin
