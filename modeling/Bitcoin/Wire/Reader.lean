import Bitcoin.Error

/-!
# Reading serialized data

A `Cursor` is a place in a byte string: how far it is from the start, and what is left. A
`Reader` takes values from a cursor. `Reader.take` takes as many bytes as are wanted or
fails and stays where it is, and every other reader is made from it. A reader made from
several keeps the place that the parts before the failing one have reached.
-/

namespace Bitcoin

/-- A place in a byte string. -/
structure Cursor where
  /-- The number of bytes before the place. -/
  position : Nat
  /-- The bytes after the place. -/
  rest : Bytes
deriving DecidableEq

/-- The start of a byte string. -/
def Cursor.start (bytes : Bytes) : Cursor :=
  ⟨0, bytes⟩

/-- Whether no bytes are left. -/
def Cursor.atEnd (cursor : Cursor) : Bool :=
  cursor.rest.isEmpty

/-- A way to take a value from a byte string. -/
abbrev Reader := EStateM Error Cursor

namespace Reader

/-- Takes `n` bytes, or fails and takes none. -/
def takeFixed (n : Nat) : Reader (FixedBytes n) := fun cursor =>
  let head := cursor.rest.take n
  if h : head.length = n then
    .ok ⟨head, h⟩ ⟨cursor.position + n, cursor.rest.drop n⟩
  else
    .error (.decoding (.endOfData n cursor.position cursor.rest.length)) cursor

/-- Takes `n` bytes, or fails and takes none. -/
def take (n : Nat) : Reader Bytes := do
  let bytes ← takeFixed n
  return bytes.toList

/-- Takes a number of `width` bytes, the least significant first. -/
def natLE (width : Nat) : Reader Nat := do
  let bytes ← take width
  return Bytes.toNatLE bytes

/-- Takes a number of `width` bytes, the most significant first. -/
def natBE (width : Nat) : Reader Nat := do
  let bytes ← take width
  return Bytes.toNatBE bytes

/-- Takes a byte. -/
def u8 : Reader UInt8 := do
  let n ← natLE 1
  return UInt8.ofNat n

/-- Takes a word of two bytes, the least significant first. -/
def u16 : Reader UInt16 := do
  let n ← natLE 2
  return UInt16.ofNat n

/-- Takes a word of four bytes, the least significant first. -/
def u32 : Reader UInt32 := do
  let n ← natLE 4
  return UInt32.ofNat n

/-- Takes a word of eight bytes, the least significant first. -/
def u64 : Reader UInt64 := do
  let n ← natLE 8
  return UInt64.ofNat n

/-- Takes `count` values one after the other, behind those already taken, which are given
backwards. The first failure ends it, whatever the count. -/
def repeatAfter {α : Type} (reader : Reader α) : (count : Nat) → List α → Reader (List α)
  | 0, done => return done.reverse
  | count + 1, done => do
    let value ← reader
    repeatAfter reader count (value :: done)

/-- Takes `count` values one after the other. -/
def many {α : Type} (count : Nat) (reader : Reader α) : Reader (List α) :=
  repeatAfter reader count []

/-- Reads a value at the start of a byte string, and gives the bytes after it. -/
def runOn {α : Type} (reader : Reader α) (bytes : Bytes) : Except Error (α × Bytes) :=
  match reader (Cursor.start bytes) with
  | .ok value cursor => .ok (value, cursor.rest)
  | .error e _ => .error e

end Reader

end Bitcoin
