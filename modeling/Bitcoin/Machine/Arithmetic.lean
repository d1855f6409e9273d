import Bitcoin.Machine.Stack

/-!
# Opcodes that compute

Arithmetic, comparison and hashing take their operands from the stack and put the result on
it. Of two operands the second is on top. A number that is put on the stack is a word, and
wraps around if the exact result is none.
-/

namespace Bitcoin.Step

/-- Replaces a number. -/
def unary (f : Int → Item) : Step Unit := do
  let a ← popInt
  push (f a)

/-- Replaces two numbers. -/
def binary (f : Int → Int → Item) : Step Unit := do
  need 2
  let b ← popInt
  let a ← popInt
  push (f a b)

/-- Replaces three numbers by whether the first lies between the others, the upper one
excluded. -/
def within : Step Unit := do
  need 3
  let high ← popInt
  let low ← popInt
  let x ← popInt
  push (.truth (decide (low ≤ x ∧ x < high)))

/-- Replaces two items by whether they have the same bytes. -/
def equal : Step Unit := do
  need 2
  let b ← popBytes
  let a ← popBytes
  push (.truth (a == b))

/-- Replaces an item by a digest of its bytes. -/
def digest {n : Nat} (hash : Bytes → FixedBytes n) : Step Unit := do
  let data ← popBytes
  push (.bytes (hash data).toList)

end Bitcoin.Step
