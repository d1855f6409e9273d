import Bitcoin.Machine.Item
import Bitcoin.Transaction.Digest

/-!
# The script machine

A `Machine` executes scripts on a stack and an alternative stack, whose first items are the
top ones. It stops when a script fails by its own rules. A step of the machine (`Step`) may
instead end with an error; the machine is then left as it was when the error arose, with
the operands already taken gone.
-/

namespace Bitcoin

/-- The limits of a machine. -/
structure Limits where
  /-- The greatest number of items on both stacks. -/
  stackSize : Nat
  /-- The greatest depth to which conditionals are entered. -/
  branchDepth : Nat
  /-- The greatest number of bytes of a number. -/
  numberLength : Nat
deriving DecidableEq

/-- The usual limits. -/
def Limits.standard : Limits :=
  ⟨1000, 256, 4⟩

/-- The input that a script is executed for. -/
structure Spending where
  transaction : Transaction
  index : Nat
  /-- The transaction has this input. -/
  index_lt : index < transaction.inputs.length
deriving DecidableEq

/-- The input being spent. -/
def Spending.input (spending : Spending) : Input :=
  spending.transaction.inputs.get ⟨spending.index, spending.index_lt⟩

/-- The state of the execution of scripts. -/
structure Machine where
  limits : Limits
  /-- The main stack, the top first. -/
  stack : List Item
  /-- The alternative stack, the top first. -/
  altStack : List Item
  /-- A copy of the main stack, to be restored. -/
  savedStack : Option (List Item)
  /-- Whether a script has failed. -/
  stopped : Bool
  /-- The input that is being spent. -/
  spending? : Option Spending
  /-- The script that signatures commit to. -/
  subScript? : Option Script
  /-- Whether fewer signatures than demanded are taken from the stack. -/
  partialMultisig : Bool
  /-- The number of signatures that the last check of several has matched. -/
  matchCount : Nat
deriving DecidableEq

/-- A part of an execution. -/
abbrev Step := EStateM Error Machine

namespace Machine

/-- The machine before any script, with no input to spend. -/
def initial : Machine :=
  ⟨Limits.standard, [], [], none, false, none, none, false, 0⟩

/-- The machine that executes scripts for an input. -/
def forInput (tx : Transaction) (index : Nat) (subScript : Script) : Except Error Machine :=
  if h : index < tx.inputs.length then
    .ok { initial with spending? := some ⟨tx, index, h⟩, subScript? := some subScript }
  else .error (.execution (.inputOutOfRange index tx.inputs.length))

/-- Whether no script has failed and the top item is true. -/
def valid (m : Machine) : Bool :=
  !m.stopped && (m.stack.head?.map Item.toBool).getD false

/-- The number of items on both stacks. -/
def size (m : Machine) : Nat :=
  m.stack.length + m.altStack.length

end Machine

namespace Step

/-- Ends with an error. -/
def fail {α : Type} (fault : ExecutionFault) : Step α :=
  throw (.execution fault)

/-- A value that was computed or could not be. -/
def ofExcept {α : Type} : Except Error α → Step α
  | .ok a => return a
  | .error e => throw e

/-- Stops the machine. -/
def stop : Step Unit :=
  modify fun m => { m with stopped := true }

/-- Puts an item on the stack. -/
def push (item : Item) : Step Unit :=
  modify fun m => { m with stack := item :: m.stack }

/-- Takes the top item. -/
def pop : Step Item := fun m =>
  match m.stack with
  | [] => .error (.execution .emptyStack) m
  | item :: rest => .ok item { m with stack := rest }

/-- Takes the bytes of the top item. -/
def popBytes : Step Bytes := do
  let item ← pop
  return item.toBytes

/-- Takes the truth value of the top item. -/
def popBool : Step Bool := do
  let item ← pop
  return item.toBool

/-- Takes the number of the top item. -/
def popInt : Step Int := do
  let m ← get
  let item ← pop
  ofExcept (item.toInt m.limits.numberLength)

/-- Refuses a stack of fewer than `n` items. -/
def need (n : Nat) : Step Unit := do
  let m ← get
  if m.stack.length < n then fail (.tooFewOperands n)

/-- Refuses stacks with more items than the limit. -/
def checkSize : Step Unit := do
  let m ← get
  if m.size > m.limits.stackSize then fail (.tooManyItems m.size)

/-- Keeps a copy of the stack. -/
def saveStack : Step Unit :=
  modify fun m => { m with savedStack := some m.stack }

/-- Goes back to the copy of the stack, which is used up. -/
def restoreStack : Step Unit := fun m =>
  match m.savedStack with
  | none => .error (.execution .noSavedStack) m
  | some stack => .ok () { m with stack, savedStack := none }

/-- The input that is being spent and the script that signatures commit to. -/
def context : Step (Spending × Script) := do
  let m ← get
  match m.spending? with
  | none => fail .noTransaction
  | some spending =>
    match m.subScript? with
    | none => fail .noSubScript
    | some subScript => return (spending, subScript)

/-- Stops the machine unless the top item, which is taken, is true. -/
def verify : Step Unit := do
  let b ← popBool
  if !b then stop

end Step

end Bitcoin
