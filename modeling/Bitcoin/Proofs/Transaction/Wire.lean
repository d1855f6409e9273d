import Bitcoin.Proofs.Wire.CompactSize
import Bitcoin.Transaction.Basic

/-!
# Reading transactions back

A transaction whose counts and lengths fit into compact sizes (`Transaction.Fits`) is taken
from its form on the wire, whatever follows it. Its scripts are then byte strings; apart
from this it is the same transaction (`Transaction.asRead`). So the form on the wire tells
transactions apart up to the structure of their scripts (`Transaction.encode_append_inj`).
-/

namespace Bitcoin

open Reader

/-- A script as it is read from the wire. -/
def Script.asRead (script : Script) : Script :=
  .encoded script.bytes

/-- An input as it is read from the wire. -/
def Input.asRead (input : Input) : Input :=
  { input with script := input.script.asRead }

/-- An output as it is read from the wire. -/
def Output.asRead (output : Output) : Output :=
  { output with script := output.script.asRead }

namespace Transaction

/-- A transaction as it is read from the wire. -/
def asRead (tx : Transaction) : Transaction :=
  { tx with inputs := tx.inputs.map Input.asRead, outputs := tx.outputs.map Output.asRead }

/-- Whether the counts and lengths in a transaction are below `2 ^ 64`, as those of byte
strings and lists in memory are. -/
structure Fits (tx : Transaction) : Prop where
  inputs : tx.inputs.length < UInt64.size
  outputs : tx.outputs.length < UInt64.size
  inputScripts : ∀ input ∈ tx.inputs, input.script.bytes.length < UInt64.size
  outputScripts : ∀ output ∈ tx.outputs, output.script.bytes.length < UInt64.size

end Transaction

theorem Input.takes_read {input : Input} (h : input.script.bytes.length < UInt64.size) :
  Takes read input.encode input.asRead
  := by
  rw [encode, List.append_assoc, List.append_assoc]
  apply (takes_takeFixed input.outpoint.transaction).bind
  apply (takes_u32 input.outpoint.index).bind
  apply (CompactSize.takes_encodeBytes h).bind
  apply (takes_u32 input.sequence).map _

theorem Output.takes_read {output : Output} (h : output.script.bytes.length < UInt64.size) :
  Takes read output.encode output.asRead
  := by
  apply (takes_u64 output.value).bind
  apply (CompactSize.takes_encodeBytes h).map _

namespace Transaction

/-- A transaction that fits is read back from its form. -/
theorem takes_read {tx : Transaction} (h : tx.Fits) :
  Takes read tx.encode tx.asRead
  := by
  have hinputs : Takes (many tx.inputs.length Input.read) (tx.inputs.flatMap Input.encode)
      (tx.inputs.map Input.asRead) :=
    takes_many tx.inputs fun input hinput => Input.takes_read (h.inputScripts input hinput)
  have houtputs : Takes (many tx.outputs.length Output.read) (tx.outputs.flatMap Output.encode)
      (tx.outputs.map Output.asRead) :=
    takes_many tx.outputs fun output houtput => Output.takes_read (h.outputScripts output houtput)
  simp only [encode, List.append_assoc]
  apply (takes_u32 tx.version).bind
  apply (CompactSize.takes_encode h.inputs).bind
  apply hinputs.bind
  apply (CompactSize.takes_encode h.outputs).bind
  apply houtputs.bind
  apply (takes_u32 tx.lockTime).map _

/-- The form on the wire does not depend on the structure of scripts. -/
theorem encode_asRead (tx : Transaction) :
  tx.asRead.encode = tx.encode
  := by
  simp only [encode, asRead, List.length_map, List.flatMap_map]
  rfl

/-- The form on the wire tells transactions apart, whatever follows it. -/
theorem encode_append_inj {tx tx' : Transaction} (h : tx.Fits) (h' : tx'.Fits)
    {rest rest' : Bytes} :
  tx.encode ++ rest = tx'.encode ++ rest' ↔ tx.asRead = tx'.asRead ∧ rest = rest'
  := by
  constructor
  · exact fun e => (takes_read h).unique (takes_read h') e
  · rintro ⟨e, rfl⟩
    rw [← encode_asRead tx, e, encode_asRead]

end Transaction

end Bitcoin
