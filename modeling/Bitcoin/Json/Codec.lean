import Bitcoin.Json.Record
import Bitcoin.Machine.Basic
import Bitcoin.Transaction.Unspent

/-!
# Values as structured data

Transactions, unspent outputs, limits, networks, hashes and scripts have a form as
structured data: `toJson` gives it and `ofJson?` reads it. Hashes are text in the order of
display and scripts are hexadecimal text. `Transaction.describe` is a form for people, with
the text of each script and the name of the transaction.
-/

namespace Bitcoin

namespace Hash256

/-- A hash as structured data. -/
def toJson (hash : Hash256) : Json :=
  .text hash.toHex

/-- The hash that structured data denotes. -/
def ofJson? (value : Json) : Option Hash256 := do
  let text ← value.text?
  (ofHex text).toOption

end Hash256

namespace Script

/-- A script as structured data. -/
def toJson (script : Script) : Json :=
  .text script.toHex

/-- The script that structured data denotes. -/
def ofJson? (value : Json) : Option Script := do
  let text ← value.text?
  (ofHex text).toOption

end Script

namespace Network

/-- The network with a name. -/
def ofName? (name : String) : Option Network :=
  [mainnet, testnet].find? (·.name = name)

/-- The network that structured data denotes: its name, or its name with nothing. -/
def ofJson? : Json → Option Network
  | .string (some name) => ofName? name
  | .object [(some name, .null)] => ofName? name
  | _ => none

end Network

namespace Input

/-- An input as structured data. -/
def toJson (input : Input) : Json :=
  .struct [("outpoint", input.outpoint.transaction.toJson),
    ("outpoint_index", .nat input.outpoint.index.toNat), ("script", input.script.toJson),
    ("sequence_num", .nat input.sequence.toNat)]

/-- The input that structured data denotes. -/
def ofJson? (value : Json) : Option Input := do
  match ← value.fields? ["outpoint", "outpoint_index", "script", "sequence_num"] with
  | [transaction, index, script, sequence] =>
    let transaction ← Hash256.ofJson? transaction
    let index ← index.uint32?
    let script ← Script.ofJson? script
    let sequence ← sequence.uint32?
    some ⟨⟨transaction, index⟩, script, sequence⟩
  | _ => none

/-- An input for people. -/
def describe (input : Input) : Json :=
  .struct [("outpoint", input.outpoint.transaction.toJson),
    ("outpoint_index", .nat input.outpoint.index.toNat), ("script", input.script.toJson),
    ("script_text", .text input.script.display), ("sequence_num", .nat input.sequence.toNat)]

end Input

namespace Output

/-- An output as structured data. -/
def toJson (output : Output) : Json :=
  .struct [("value", .nat output.value.toNat), ("script", output.script.toJson)]

/-- The output that structured data denotes. -/
def ofJson? (value : Json) : Option Output := do
  match ← value.fields? ["value", "script"] with
  | [value, script] =>
    let value ← value.uint64?
    let script ← Script.ofJson? script
    some ⟨value, script⟩
  | _ => none

/-- An output for people. -/
def describe (output : Output) : Json :=
  .struct [("value", .nat output.value.toNat), ("script", output.script.toJson),
    ("script_text", .text output.script.display)]

end Output

namespace Transaction

/-- A transaction as structured data. -/
def toJson (tx : Transaction) : Json :=
  .struct [("version", .nat tx.version.toNat), ("inputs", .array (tx.inputs.map Input.toJson)),
    ("outputs", .array (tx.outputs.map Output.toJson)), ("lock_time", .nat tx.lockTime.toNat)]

/-- The transaction that structured data denotes. -/
def ofJson? (value : Json) : Option Transaction := do
  match ← value.fields? ["version", "inputs", "outputs", "lock_time"] with
  | [version, inputs, outputs, lockTime] =>
    let version ← version.uint32?
    let inputs ← inputs.list? Input.ofJson?
    let outputs ← outputs.list? Output.ofJson?
    let lockTime ← lockTime.uint32?
    some ⟨version, inputs, outputs, lockTime⟩
  | _ => none

/-- A transaction for people. -/
def describe (tx : Transaction) : Json :=
  .struct [("hash", tx.hash.toJson), ("version", .nat tx.version.toNat),
    ("lock_time", .nat tx.lockTime.toNat),
    ("inputs", .array (tx.inputs.map Input.describe)),
    ("outputs", .array (tx.outputs.map Output.describe))]

end Transaction

namespace Unspent

/-- An unspent output as structured data. -/
def toJson (unspent : Unspent) : Json :=
  .struct [("transaction_hash", unspent.outpoint.transaction.toJson),
    ("outpoint_index", .nat unspent.outpoint.index.toNat),
    ("value", .nat unspent.value.toNat), ("script", unspent.script.toJson),
    ("num_confirmations", .nat unspent.confirmations.toNat)]

/-- The unspent output that structured data denotes. -/
def ofJson? (value : Json) : Option Unspent := do
  match ← value.fields?
    ["transaction_hash", "outpoint_index", "value", "script", "num_confirmations"] with
  | [transaction, index, value, script, confirmations] =>
    let transaction ← Hash256.ofJson? transaction
    let index ← index.uint32?
    let value ← value.uint64?
    let script ← Script.ofJson? script
    let confirmations ← confirmations.uint32?
    some ⟨⟨transaction, index⟩, value, script, confirmations⟩
  | _ => none

end Unspent

namespace Limits

/-- Limits as structured data. -/
def toJson (limits : Limits) : Json :=
  .struct [("max_stack_size", .nat limits.stackSize),
    ("max_branch_depth", .nat limits.branchDepth), ("max_num_len", .nat limits.numberLength)]

/-- The limits that structured data denotes, each below `2 ^ 64`. -/
def ofJson? (value : Json) : Option Limits := do
  match ← value.fields? ["max_stack_size", "max_branch_depth", "max_num_len"] with
  | [stackSize, branchDepth, numberLength] =>
    let stackSize ← stackSize.natBelow? UInt64.size
    let branchDepth ← branchDepth.natBelow? UInt64.size
    let numberLength ← numberLength.natBelow? UInt64.size
    some ⟨stackSize, branchDepth, numberLength⟩
  | _ => none

end Limits

end Bitcoin
