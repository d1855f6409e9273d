import Bitcoin.Script.Edit
import Bitcoin.Transaction.Basic

/-!
# What signatures commit to

A signature commits to a copy of the transaction, from which its hash type leaves out the
parts that may still change: the other inputs, all outputs, or all outputs but one
(`Transaction.committed`). The digest that is signed is the double SHA-256 of the copy and
the hash type (`Transaction.digest`).
-/

namespace Bitcoin

/-- What a signature commits to, as a word of bits. -/
abbrev HashType := UInt32

/-- Which outputs a hash type commits to. -/
inductive HashType.Outputs where
  | all
  | none
  /-- The one with the index of the input. -/
  | single
deriving DecidableEq

/-- Which outputs a hash type commits to. -/
def HashType.outputs (hashType : HashType) : HashType.Outputs :=
  if hashType &&& 0x1f = 2 then .none
  else if hashType &&& 0x1f = 3 then .single
  else .all

/-- Whether a hash type leaves out the other inputs. -/
def HashType.anyoneCanPay (hashType : HashType) : Bool :=
  hashType &&& 0x80 != 0

namespace Transaction

/-- The inputs that a hash type commits to: the one that is signed, with the script it is
signed for, and the others without their scripts, and without their sequence numbers
unless all outputs are committed to. -/
def committedInputs (tx : Transaction) (index : Nat) (hashType : HashType)
    (subScript : Script) : List Input :=
  if hashType.anyoneCanPay then
    (tx.inputs[index]?.map fun input => { input with script := subScript }).toList
  else
    tx.inputs.mapIdx fun i input =>
      if i = index then { input with script := subScript }
      else if hashType.outputs = .all then { input with script := Script.empty }
      else { input with script := Script.empty, sequence := 0 }

/-- The output that stands in front of the only one that is committed to. -/
def blankOutput : Output :=
  ⟨0xffffffffffffffff, Script.empty⟩

/-- The outputs that a hash type commits to. -/
def committedOutputs (tx : Transaction) (index : Nat) (hashType : HashType) : List Output :=
  match hashType.outputs with
  | .all => tx.outputs
  | .none => []
  | .single =>
    let kept := tx.outputs.take (index + 1)
    List.replicate (kept.length - 1) blankOutput ++ kept.drop (kept.length - 1)

/-- The copy of a transaction that a signature of an input commits to. -/
def committed (tx : Transaction) (index : Nat) (hashType : HashType) (subScript : Script) :
    Except Error Transaction := do
  tx.checkInput index
  .ok { tx with
    inputs := tx.committedInputs index hashType subScript
    outputs := tx.committedOutputs index hashType }

/-- The digest that stands for a single output that does not exist. -/
def missingOutputDigest : FixedBytes 32 :=
  ⟨1 :: List.replicate 31 0, by simp⟩

/-- The digest that a signature of an input signs. -/
def digest (tx : Transaction) (index : Nat) (hashType : HashType) (subScript : Script) :
    Except Error (FixedBytes 32) := do
  tx.checkInput index
  if hashType.outputs = .single ∧ index ≥ tx.outputs.length then .ok missingOutputDigest
  else
    let stripped ← subScript.removeOp .codeSeparator
    let copy ← tx.committed index hashType stripped
    .ok (Digest.hash256 (copy.encode ++ Bytes.ofNatLE 4 hashType.toNat))

end Transaction

end Bitcoin
