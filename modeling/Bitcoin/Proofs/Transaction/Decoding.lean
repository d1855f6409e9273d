import Bitcoin.Proofs.Transaction.Wire
import Bitcoin.Proofs.Wire.Delimited
import Mathlib.Data.List.Forall2

/-!
# Transactions are decoded uniquely

The forms of transactions, inputs and outputs on the wire are delimited
(`Transaction.decode_delimited`): what is decoded from one, with anything behind it, is the
transaction, input or output, and nothing can be decoded from a part of one. Scripts are equal
when their bytes are, so that a script that was assembled equals the byte string that is read in
its place (`Transaction.Same`).
-/

namespace Bitcoin

open Reader

/-! ### Equality -/

/-- Whether inputs are equal; their scripts are if they have the same bytes. -/
structure Input.Same (input input' : Input) : Prop where
  outpoint : input.outpoint = input'.outpoint
  script : input.script.same input'.script = true
  sequence : input.sequence = input'.sequence

/-- Whether outputs are equal; their scripts are if they have the same bytes. -/
structure Output.Same (output output' : Output) : Prop where
  value : output.value = output'.value
  script : output.script.same output'.script = true

/-- Whether transactions are equal; scripts are if they have the same bytes. -/
structure Transaction.Same (tx tx' : Transaction) : Prop where
  version : tx.version = tx'.version
  inputs : List.Forall₂ Input.Same tx.inputs tx'.inputs
  outputs : List.Forall₂ Output.Same tx.outputs tx'.outputs
  lockTime : tx.lockTime = tx'.lockTime

theorem Script.same_asRead (script : Script) :
  script.asRead.same script = true
  := beq_self_eq_true _

theorem Input.same_asRead (input : Input) :
  input.asRead.Same input
  := ⟨rfl, input.script.same_asRead, rfl⟩

theorem Output.same_asRead (output : Output) :
  output.asRead.Same output
  := ⟨rfl, output.script.same_asRead⟩

/-- A transaction as it is read from the wire is the same transaction. -/
theorem Transaction.same_asRead (tx : Transaction) :
  tx.asRead.Same tx
  where
  version := rfl
  inputs := by
    rw [asRead, List.forall₂_map_left_iff, List.forall₂_same]
    exact fun input _ => input.same_asRead
  outputs := by
    rw [asRead, List.forall₂_map_left_iff, List.forall₂_same]
    exact fun output _ => output.same_asRead
  lockTime := rfl

/-! ### Decoding -/

theorem Input.steady_read :
  Steady read
  := (steady_takeFixed 32).bind fun _ => steady_u32.bind fun _ =>
    CompactSize.steady_readBytes.bind fun _ => steady_u32.map _

theorem Output.steady_read :
  Steady read
  := steady_u64.bind fun _ => CompactSize.steady_readBytes.map _

namespace Transaction

/-- Reading a transaction does not depend on what stands behind it. -/
theorem steady_read :
  Steady read
  := steady_u32.bind fun _ => CompactSize.steady_read.bind fun inputCount =>
    (steady_many Input.steady_read inputCount).bind fun _ =>
      CompactSize.steady_read.bind fun outputCount =>
        (steady_many Output.steady_read outputCount).bind fun _ => steady_u32.map _

/-- Transactions, inputs and outputs are decoded uniquely: from the form on the wire with
anything behind it each of them is decoded, and what is behind it is left; from every proper
prefix of the form nothing is decoded, because the data ends too early. -/
theorem decode_delimited :
  (∀ tx : Transaction, tx.Fits →
      Delimited Transaction.decode tx.encode tx.asRead ∧ tx.asRead.Same tx)
    ∧ (∀ input : Input, input.script.bytes.length < UInt64.size →
      Delimited Input.decode input.encode input.asRead ∧ input.asRead.Same input)
    ∧ ∀ output : Output, output.script.bytes.length < UInt64.size →
      Delimited Output.decode output.encode output.asRead ∧ output.asRead.Same output
  := by
  refine ⟨fun tx h => ⟨?_, tx.same_asRead⟩, fun input h => ⟨?_, input.same_asRead⟩,
    fun output h => ⟨?_, output.same_asRead⟩⟩
  · apply (takes_read h).delimited steady_read
  · apply (Input.takes_read h).delimited Input.steady_read
  · apply (Output.takes_read h).delimited Output.steady_read

/-- A transaction with an input and an output, which is decoded in front of another byte, and
not without its last byte. -/
theorem decode_delimited_small :
  let input : Input := ⟨⟨FixedBytes.zero 32, 0⟩, .encoded [0x51], 0xffffffff⟩
  let output : Output := ⟨5000, .encoded [0x52, 0x87]⟩
  let tx : Transaction := ⟨1, [input], [output], 0⟩
  decode (tx.encode ++ [0xff]) = .ok (tx, [0xff])
    ∧ (∃ wanted position left,
      decode tx.encode.dropLast = .error (.decoding (.endOfData wanted position left)))
    ∧ Input.decode (input.encode ++ output.encode) = .ok (input, output.encode)
    ∧ Output.decode output.encode = .ok (output, [])
  := by
  intro input output tx
  have hinput : input.script.bytes.length < UInt64.size := by decide
  have houtput : output.script.bytes.length < UInt64.size := by decide
  have hfits : tx.Fits := by
    constructor
    · decide
    · decide
    · exact List.forall_mem_singleton.mpr hinput
    · exact List.forall_mem_singleton.mpr houtput
  obtain ⟨htx, hin, hout⟩ := decode_delimited
  have hfront : tx.encode.dropLast ≠ tx.encode := by decide
  refine ⟨(htx tx hfits).1.whole [0xff], (htx tx hfits).1.cut _ (List.dropLast_prefix _) hfront,
    (hin input hinput).1.whole _, ?_⟩
  have hwhole := (hout output houtput).1.whole []
  rw [List.append_nil] at hwhole
  apply hwhole

end Transaction

end Bitcoin
