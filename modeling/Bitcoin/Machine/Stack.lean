import Bitcoin.Machine.Basic

/-!
# Opcodes that move items

Most opcodes that only move items around rearrange the top of the stack. They see the stack
as an array, in which the top is last, and find their items by how far these are from the
end. A `StackOp` is such a rearrangement, of a stack that has the items it needs.
-/

namespace Bitcoin

namespace Machine

/-- The items on the stack, the top last. -/
def items (m : Machine) : Array Item :=
  m.stack.reverse.toArray

/-- The machine with other items on its stack, the top last. -/
def withItems (m : Machine) (items : Array Item) : Machine :=
  { m with stack := items.toList.reverse }

end Machine

/-- A rearrangement of a stack that has at least so many items. -/
abbrev StackOp (needed : Nat) :=
  (items : Array Item) → needed ≤ items.size → Array Item

namespace StackOp

/-- Drops two items. -/
def drop2 : StackOp 2 := fun items _ =>
  items.take (items.size - 2)

/-- Repeats two items. -/
def dup2 : StackOp 2 := fun items _ =>
  items ++ items.extract (items.size - 2)

/-- Repeats three items. -/
def dup3 : StackOp 3 := fun items _ =>
  items ++ items.extract (items.size - 3)

/-- Copies the second pair to the top. -/
def over2 : StackOp 4 := fun items _ =>
  items ++ items.extract (items.size - 4) (items.size - 2)

/-- Moves the third pair to the top. -/
def rot2 : StackOp 6 := fun items _ =>
  let moved := items.extract (items.size - 6) (items.size - 4)
  let left := items.take (items.size - 6) ++ items.extract (items.size - 4)
  left ++ moved

/-- Swaps two pairs. -/
def swap2 : StackOp 4 := fun items _ =>
  let swapped := items.swap (items.size - 4) (items.size - 2)
  swapped.swap (items.size - 3) (items.size - 1) (by grind) (by grind)

/-- Repeats a true item. -/
def ifDup : StackOp 1 := fun items _ =>
  let top := items[items.size - 1]
  if top.toBool then items.push top else items

/-- Repeats an item. -/
def dup : StackOp 1 := fun items _ =>
  items.push items[items.size - 1]

/-- Drops the second item. -/
def nip : StackOp 2 := fun items _ =>
  items.eraseIdx (items.size - 2)

/-- Copies the second item to the top. -/
def dupSecond : StackOp 2 := fun items _ =>
  items.push items[items.size - 2]

/-- Moves the third item to the top. -/
def rot : StackOp 3 := fun items _ =>
  (items.eraseIdx (items.size - 3)).push items[items.size - 3]

/-- Swaps two items. -/
def swap : StackOp 2 := fun items _ =>
  items.swap (items.size - 2) (items.size - 1)

/-- Copies the top item below the second. -/
def tuck : StackOp 2 := fun items _ =>
  items.insertIdx (items.size - 2) items[items.size - 1]

/-- Puts the size of the top item on it. -/
def size : StackOp 1 := fun items _ =>
  items.push (.number (items[items.size - 1].toBytes.length : Int))

end StackOp

/-- A rearrangement that brings the item at a position up. -/
abbrev BringUp :=
  (items : Array Item) → (position : Nat) → position < items.size → Array Item

namespace BringUp

/-- Copies the item to the top. -/
def copy : BringUp := fun items position _ =>
  items.push items[position]

/-- Moves the item to the top. -/
def move : BringUp := fun items position _ =>
  (items.eraseIdx position).push items[position]

end BringUp

namespace Step

/-- Refuses a stack of fewer than `n` items, and rearranges it otherwise. -/
def rearrange (n : Nat) (op : StackOp n) : Step Unit := do
  need n
  modify fun m => if h : n ≤ m.items.size then m.withItems (op m.items h) else m

/-- Drops the top item. -/
def drop : Step Unit := do
  let _ ← pop

/-- Moves the top item to the alternative stack. -/
def toAltStack : Step Unit := do
  let item ← pop
  modify fun m => { m with altStack := item :: m.altStack }

/-- Moves the top item of the alternative stack back. -/
def fromAltStack : Step Unit := fun m =>
  match m.altStack with
  | [] => .error (.execution .emptyAltStack) m
  | item :: rest => .ok () { m with stack := item :: m.stack, altStack := rest }

/-- Puts the number of items on the stack. -/
def depth : Step Unit := do
  let m ← get
  push (.number (m.stack.length : Int))

/-- Brings the item that is so far below the top up, and refuses if there is none. -/
def bringUp (op : Opcode) (bring : BringUp) (n : Int) : Step Unit := do
  let m ← get
  if h : 0 ≤ n ∧ n.toNat < m.items.size then
    set (m.withItems (bring m.items (m.items.size - 1 - n.toNat) (by omega)))
  else fail (.itemOutOfRange op n)

/-- Takes a number and brings the item that is so far below the top up. -/
def bringCounted (op : Opcode) (bring : BringUp) : Step Unit := do
  need 2
  let n ← popInt
  bringUp op bring n

/-- Copies an item to the top. -/
def pick : Step Unit :=
  bringCounted .pick .copy

/-- Moves an item to the top. -/
def roll : Step Unit :=
  bringCounted .roll .move

end Step

end Bitcoin
