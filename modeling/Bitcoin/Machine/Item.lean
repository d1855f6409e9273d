import Bitcoin.Script.Number

/-!
# Stack items

An `Item` is a byte string, or the number or truth value that an opcode has produced and
that is not written out yet. A number is a signed word of 64 bits, and an integer that does
not fit into one wraps around. Every item has bytes, a truth value and, within a limit, a
number.
-/

namespace Bitcoin

/-- An integer is brought into a word by wrapping around. -/
instance coeWord : Coe Int Int64 where
  coe := Int64.ofInt

/-- A value on a stack. -/
inductive Item where
  | bytes (bytes : Bytes)
  | number (n : Int64)
  | truth (b : Bool)
deriving DecidableEq

namespace Item

/-- The bytes of an item. -/
def toBytes : Item → Bytes
  | .bytes data => data
  | .number n => ScriptNumber.encode n.toInt
  | .truth true => [1]
  | .truth false => []

/-- Whether an item counts as true. -/
def toBool : Item → Bool
  | .bytes data => ScriptNumber.isTrue data
  | .number n => n != 0
  | .truth b => b

/-- The number of an item whose form has at most `limit` bytes; a truth value always has
one. -/
def toInt (limit : Nat) : Item → Except Error Int
  | .bytes data => ScriptNumber.decode data limit
  | .number n =>
    let length := (ScriptNumber.encode n.toInt).length
    if length > limit then .error (.execution (.numberTooLong length limit)) else .ok n.toInt
  | .truth b => .ok (if b then 1 else 0)

end Item

end Bitcoin
