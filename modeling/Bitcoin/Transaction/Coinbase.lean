import Bitcoin.Transaction.Basic

/-!
# Coinbase inputs

The input of a transaction that creates coins spends no output. Its script is arbitrary
data, at whose start blocks from version 2 on push their height. `Coinbase.ofHeight` builds
such an input and `Coinbase.ofInput` reads the height back.
-/

namespace Bitcoin

/-- An input that creates coins. -/
structure Coinbase where
  /-- The height of the block, if it is known. -/
  height? : Option UInt32
  input : Input
deriving DecidableEq

namespace Coinbase

/-- The input of a block of a given height and version. -/
def ofHeight (height : UInt32) (data : Bytes) (sequence blockVersion : UInt32) : Coinbase :=
  let push := if blockVersion = 1 then [] else Script.pushInt height.toNat
  ⟨some height, ⟨Outpoint.null, .encoded (push ++ data), sequence⟩⟩

/-- The number that a script pushes first, if it has at most five bytes. -/
def leadingNumber? : Bytes → Option Int
  | [] => none
  | first :: rest =>
    if first = 0 then some 0
    else if 0x51 ≤ first ∧ first ≤ 0x60 then some (first.toNat - 0x50)
    else if first ≤ 0x05 then
      let number := rest.take first.toNat
      if number.length = first.toNat then some (ScriptNumber.value number) else none
    else none

/-- The height that a script pushes first. -/
def leadingHeight? (script : Bytes) : Option UInt32 := do
  let n ← leadingNumber? script
  if 0 ≤ n ∧ n < UInt32.size then some (UInt32.ofNat n.toNat) else none

/-- An input that spends no output, with the height that its script pushes. -/
def ofInput (input : Input) : Except Error Coinbase :=
  if input.isCoinbase then .ok ⟨leadingHeight? input.script.bytes, input⟩
  else .error (.decoding .notCoinbase)

end Coinbase

end Bitcoin
