import Bitcoin.Proofs.Transaction.Decoding
import Bitcoin.Proofs.Transaction.Shortest
import Bitcoin.Proofs.Wire.Trace

/-!
# How much is read for a transaction

An input takes at least 41 bytes, an output at least 9, and both as many more as are in their
scripts. So the bytes that a transaction is decoded from are not fewer than its size demands, and
whatever number of inputs and outputs is declared, decoding begins no more of them than fit into the
bytes, but for one that fails and ends it (`Transaction.decode_within`).
-/

namespace Bitcoin

open Reader Tracing

/-! ### The least sizes -/

theorem CompactSize.length_encode_pos (n : Nat) :
  0 < (encode n).length
  := by
  rw [encode]
  split_ifs <;> apply Nat.succ_pos

theorem CompactSize.lt_length_encodeBytes (bytes : Bytes) :
  bytes.length < (encodeBytes bytes).length
  := by
  have hpos := length_encode_pos bytes.length
  rw [encodeBytes, List.length_append]
  omega

/-- An input has at least 41 bytes besides its script. -/
theorem Input.le_length_encode (input : Input) :
  41 + input.script.bytes.length ≤ input.encode.length
  := by
  have hscript := CompactSize.lt_length_encodeBytes input.script.bytes
  simp only [encode, List.length_append, FixedBytes.length_eq, Bytes.length_ofNatLE]
  omega

/-- An output has at least nine bytes besides its script. -/
theorem Output.le_length_encode (output : Output) :
  9 + output.script.bytes.length ≤ output.encode.length
  := by
  have hscript := CompactSize.lt_length_encodeBytes output.script.bytes
  simp only [encode, List.length_append, Bytes.length_ofNatLE]
  omega

/-- A list has the least size of its values, and what they have above it. -/
theorem Bytes.le_length_flatMap {α : Type} {encode : α → Bytes} {size : α → Nat} {least : Nat}
    (h : ∀ x, least + size x ≤ (encode x).length) (xs : List α) :
  least * xs.length + (xs.map size).sum ≤ (xs.flatMap encode).length
  := by
  induction xs with
  | nil => exact Nat.le_refl 0
  | cons x xs ih =>
    have hx := h x
    rw [List.length_cons, Nat.mul_succ, List.map_cons, List.sum_cons, List.flatMap_cons,
      List.length_append]
    omega

/-! ### Inputs and outputs spend bytes -/

theorem Input.spends_read :
  Spends 41 read
  where
  consumes := (consumes_takeFixed 32).bind fun _ => consumes_u32.bind fun _ =>
    CompactSize.consumes_readBytes.bind fun _ => consumes_u32.map _
  price_le := by
    intro cursor input cursor' hread
    obtain ⟨bytes, hbytes, hform, -⟩ := takesOnly_read _ _ _ hread
    have hsize := input.le_length_encode
    have hlength := hform.length_le
    rw [hbytes, List.length_append]
    omega

theorem Output.spends_read :
  Spends 9 read
  where
  consumes := consumes_u64.bind fun _ => CompactSize.consumes_readBytes.map _
  price_le := by
    intro cursor output cursor' hread
    obtain ⟨bytes, hbytes, hform, -⟩ := takesOnly_read _ _ _ hread
    have hsize := output.le_length_encode
    have hlength := hform.length_le
    rw [hbytes, List.length_append]
    omega

namespace Transaction

/-- The bytes in all scripts of a transaction. -/
def scriptSize (tx : Transaction) : Nat :=
  (tx.inputs.map fun input => input.script.bytes.length).sum
    + (tx.outputs.map fun output => output.script.bytes.length).sum

/-- A transaction is at least as long as the least sizes of its parts say. -/
theorem le_length_encode (tx : Transaction) :
  10 + 41 * tx.inputs.length + 9 * tx.outputs.length + tx.scriptSize ≤ tx.encode.length
  := by
  have hinputCount := CompactSize.length_encode_pos tx.inputs.length
  have hinputs := Bytes.le_length_flatMap Input.le_length_encode tx.inputs
  have houtputCount := CompactSize.length_encode_pos tx.outputs.length
  have houtputs := Bytes.le_length_flatMap Output.le_length_encode tx.outputs
  simp only [encode, scriptSize, List.length_append, Bytes.length_ofNatLE]
  omega

/-! ### Tracing the decoder -/

/-- What there may be many of in a transaction. -/
inductive Part where
  | input
  | output
deriving DecidableEq

/-- Takes a transaction, and keeps a trace of the inputs and outputs whose reading is begun. -/
def readTraced : Tracing Part Transaction := do
  let version ← plain Reader.u32
  let inputCount ← plain CompactSize.read
  let inputs ← (part .input Input.read).many inputCount
  let outputCount ← plain CompactSize.read
  let outputs ← (part .output Output.read).many outputCount
  let lockTime ← plain Reader.u32
  return ⟨version, inputs, outputs, lockTime⟩

/-- The decoder with a trace is the decoder, if the trace is forgotten. -/
theorem erases_readTraced :
  Erases readTraced read
  := (erases_plain _).bind fun _ => (erases_plain _).bind fun inputCount =>
    ((erases_part _ _).many inputCount).bind fun _ => (erases_plain _).bind fun outputCount =>
      ((erases_part _ _).many outputCount).bind fun _ => (erases_plain _).bind fun _ =>
        erases_pure _

/-- The decoder is amortized if its parts are. -/
theorem amortized_readTraced {kind : Part} {price : Nat}
    (hinput : Amortized (Trace.potential kind price) price (part .input Input.read))
    (houtput : Amortized (Trace.potential kind price) price (part .output Output.read)) :
  Amortized (Trace.potential kind price) price readTraced
  := (amortized_plain consumes_u32).bind fun _ =>
    (amortized_plain CompactSize.consumes_read).bind fun inputCount =>
      (amortized_many hinput inputCount).bind fun _ =>
        (amortized_plain CompactSize.consumes_read).bind fun outputCount =>
          (amortized_many houtput outputCount).bind fun _ => (amortized_plain consumes_u32).map _

/-- Bytes that are not decoded are too few. -/
theorem exists_endOfData_of_decode {bytes : Bytes} {e : Error} (h : decode bytes = .error e) :
  ∃ wanted position left, e = .decoding (.endOfData wanted position left)
  := by
  rw [decode, Reader.runOn] at h
  split at h
  · cases h
  · next hread =>
    cases h
    apply steady_read.error hread

/-- However many inputs and outputs are declared, no more of them are read than the bytes can hold.
A transaction takes at least ten bytes, 41 for each input, 9 for each output and those of its
scripts. What decodes it, with the trace erased, begins at most one input more than there are times
41 bytes and at most one output more than there are times 9, and fails only where the data ends. -/
theorem decode_within (bytes : Bytes) :
  (∀ tx rest, decode bytes = .ok (tx, rest) →
      10 + 41 * tx.inputs.length + 9 * tx.outputs.length + tx.scriptSize + rest.length
        ≤ bytes.length)
    ∧ Erases readTraced read
    ∧ (readTraced.begun bytes).count .input ≤ bytes.length / 41 + 1
    ∧ (readTraced.begun bytes).count .output ≤ bytes.length / 9 + 1
    ∧ ∀ e, decode bytes = .error e →
      ∃ wanted position left, e = .decoding (.endOfData wanted position left)
  := by
  refine ⟨?_, erases_readTraced, ?_, ?_, fun e => exists_endOfData_of_decode⟩
  · intro tx rest h
    obtain ⟨front, rfl, hform, -⟩ := takesOnly_read.runOn h
    have hsize := tx.le_length_encode
    have hlength := hform.length_le
    rw [List.length_append]
    omega
  · have hinputs := mul_count_begun_le (amortized_readTraced (amortized_part Input.spends_read)
      (amortized_part_of_ne (by decide) Output.spends_read.consumes)) bytes
    omega
  · have houtputs := mul_count_begun_le (amortized_readTraced
      (amortized_part_of_ne (by decide) Input.spends_read.consumes)
      (amortized_part Output.spends_read)) bytes
    omega

/-- An input and an output with three bytes of script between them, in front of another byte; and
the greatest number of inputs, declared where no byte follows, of which one is begun. -/
theorem decode_within_greatest :
  let input : Input := ⟨⟨FixedBytes.zero 32, 0⟩, .encoded [0x51], 0xffffffff⟩
  let output : Output := ⟨5000, .encoded [0x52, 0x87]⟩
  let tx : Transaction := ⟨1, [input], [output], 0⟩
  let declared : Bytes := [1, 0, 0, 0, 0xff, 0xff, 0xff, 0xff, 0xff, 0xff, 0xff, 0xff, 0xff]
  decode (tx.encode ++ [0xff]) = .ok (tx, [0xff])
    ∧ 10 + 41 * 1 + 9 * 1 + 3 + 1 ≤ (tx.encode ++ [0xff]).length
    ∧ (readTraced.begun declared).count .input ≤ 1
    ∧ (∃ e, decode declared = .error e)
    ∧ ∀ e, decode declared = .error e →
      ∃ wanted position left, e = .decoding (.endOfData wanted position left)
  := by
  intro input output tx declared
  have h : decode (tx.encode ++ [0xff]) = .ok (tx, [0xff]) := by decide +kernel
  have hfails : ∃ e, decode declared = .error e := ⟨_, rfl⟩
  obtain ⟨hsize, -⟩ := decode_within (tx.encode ++ [0xff])
  obtain ⟨-, -, hinputs, -, hend⟩ := decode_within declared
  have hlength : declared.length / 41 + 1 = 1 := by decide
  rw [hlength] at hinputs
  exact ⟨h, hsize tx [0xff] h, hinputs, hfails, hend⟩

end Transaction

end Bitcoin
