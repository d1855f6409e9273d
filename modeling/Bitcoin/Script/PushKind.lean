import Bitcoin.Script.Opcode

/-!
# Kinds of push

A script pushes data in one of four forms, which differ in how the length is written.
`PushKind.smallest` is the shortest form for a length and `PushKind.capacity` the greatest
length a form can write.
-/

namespace Bitcoin

/-- How the length of pushed data is written. -/
inductive PushKind where
  /-- The length, from 1 to 75, is itself the opcode byte. -/
  | inline
  /-- An opcode and a length of one byte. -/
  | data1
  /-- An opcode and a length of two bytes. -/
  | data2
  /-- An opcode and a length of four bytes. -/
  | data4
deriving DecidableEq

namespace PushKind

/-- The shortest form for a length. -/
def smallest (length : Nat) : PushKind :=
  if length ≤ 75 then .inline
  else if length ≤ 0xff then .data1
  else if length ≤ 0xffff then .data2
  else .data4

/-- The greatest length a form can write. -/
def capacity : PushKind → Nat
  | .inline => 75
  | .data1 => 0xff
  | .data2 => 0xffff
  | .data4 => 0xffffffff

/-- The number of bytes in which a form writes the length after its opcode. -/
def lengthWidth : PushKind → Nat
  | .inline => 0
  | .data1 => 1
  | .data2 => 2
  | .data4 => 4

/-- The opcode of a form that has one. -/
def opcode? : PushKind → Option Opcode
  | .inline => none
  | .data1 => some .pushData1
  | .data2 => some .pushData2
  | .data4 => some .pushData4

/-- The form that an opcode introduces. -/
def ofOpcode? : Opcode → Option PushKind
  | .pushData1 => some .data1
  | .pushData2 => some .data2
  | .pushData4 => some .data4
  | _ => none

/-- The name of a form in messages. -/
def name : PushKind → String
  | .inline => "Inline"
  | .data1 => "PushData1"
  | .data2 => "PushData2"
  | .data4 => "PushData4"

end PushKind

end Bitcoin
