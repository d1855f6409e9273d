import Bitcoin.Proofs.Script.Edit
import Bitcoin.Proofs.Transaction.Wire
import Bitcoin.Transaction.Digest
import Mathlib.Tactic.Tauto

/-!
# What signatures commit to, exactly

A signature signs the double SHA-256 of a byte string, `Transaction.preimage`. The byte
strings of two transactions are equal exactly when the transactions agree in what the hash
type selects (`HashType.Agree`) and the scripts signed for have the same bytes without
their code separators.
-/

namespace Bitcoin

/-- Whether two transactions agree in what a signature of an input commits to, apart from
the script that the input is signed for. The mark `0x80` leaves out the other inputs; of the
lowest five bits, 2 leaves out the outputs and 3 all outputs but one, and both leave out
the sequence numbers of the other inputs. -/
structure HashType.Agree (hashType : HashType) (index : Nat) (tx tx' : Transaction) : Prop where
  version : tx.version = tx'.version
  lockTime : tx.lockTime = tx'.lockTime
  outpoint : tx.inputs[index]?.map Input.outpoint = tx'.inputs[index]?.map Input.outpoint
  sequence : tx.inputs[index]?.map Input.sequence = tx'.inputs[index]?.map Input.sequence
  inputCount : hashType &&& 0x80 = 0 → tx.inputs.length = tx'.inputs.length
  otherOutpoints : hashType &&& 0x80 = 0 → ∀ j ≠ index,
    tx.inputs[j]?.map Input.outpoint = tx'.inputs[j]?.map Input.outpoint
  otherSequences : hashType &&& 0x80 = 0 → hashType &&& 0x1f ≠ 2 → hashType &&& 0x1f ≠ 3 →
    ∀ j ≠ index, tx.inputs[j]?.map Input.sequence = tx'.inputs[j]?.map Input.sequence
  outputs : hashType &&& 0x1f ≠ 2 → hashType &&& 0x1f ≠ 3 →
    tx.outputs.map Output.asRead = tx'.outputs.map Output.asRead
  output : hashType &&& 0x1f = 3 →
    tx.outputs[index]?.map Output.asRead = tx'.outputs[index]?.map Output.asRead

theorem HashType.anyoneCanPay_eq_false_iff {hashType : HashType} :
  hashType.anyoneCanPay = false ↔ hashType &&& 0x80 = 0
  := by
  rw [anyoneCanPay, bne_eq_false_iff_eq]

/-- All outputs are committed to, unless one of two codes says otherwise. -/
theorem HashType.outputs_eq_all_iff {hashType : HashType} :
  hashType.outputs = .all ↔ hashType &&& 0x1f ≠ 2 ∧ hashType &&& 0x1f ≠ 3
  := by
  rw [outputs]
  split
  · simp [*]
  · split <;> simp [*]

theorem HashType.outputs_eq_single_iff {hashType : HashType} :
  hashType.outputs = .single ↔ hashType &&& 0x1f = 3
  := by
  rw [outputs]
  split
  · next h => simp [h]
  · split <;> simp [*]

/-- A hash type of one byte is read back from it. -/
theorem HashType.toUInt32_toUInt8 {hashType : HashType} (h : hashType < 0x100) :
  hashType.toUInt8.toUInt32 = hashType
  := by
  apply UInt32.toNat_inj.mp
  rw [UInt8.toNat_toUInt32, UInt32.toNat_toUInt8]
  apply Nat.mod_eq_of_lt (UInt32.lt_iff_toNat_lt.mp h)

namespace Transaction

/-- The byte string whose double SHA-256 a signature of an input signs, unless the hash type
selects a single output that does not exist. -/
def preimage (tx : Transaction) (index : Nat) (hashType : HashType) (subScript : Script) :
    Except Error Bytes := do
  let copy ← tx.committed index hashType subScript
  .ok (copy.encode ++ Bytes.ofNatLE 4 hashType.toNat)

variable {tx tx' : Transaction} {index : Nat} {hashType : HashType} {s s' : Script}

theorem checkInput_of_lt (h : index < tx.inputs.length) :
  tx.checkInput index = .ok ()
  := if_pos h

/-- A digest is the hash of its preimage, apart from the one case without an output. -/
theorem digest_of_preimage {stripped : Script} {bytes : Bytes}
    (hsingle : ¬ (hashType.outputs = .single ∧ index ≥ tx.outputs.length))
    (hstripped : s.removeOp .codeSeparator = .ok stripped)
    (hbytes : tx.preimage index hashType stripped = .ok bytes) :
  tx.digest index hashType s = .ok (Digest.hash256 bytes)
  := by
  obtain ⟨copy, hcopy, rfl⟩ := map_eq_ok_iff.mp hbytes
  obtain ⟨_, hindex, _⟩ := bind_eq_ok_iff.mp hcopy
  rw [digest, bind_of_eq_ok hindex, if_neg hsingle, bind_of_eq_ok hstripped, bind_of_eq_ok hcopy]

/-- Every input has a digest for a script whose separators can be removed. -/
theorem exists_digest_of_removeOp {stripped : Script} (hindex : index < tx.inputs.length)
    (hstripped : s.removeOp .codeSeparator = .ok stripped) (hashType : HashType) :
  ∃ digest, tx.digest index hashType s = .ok digest
  := by
  rw [digest, bind_of_eq_ok (checkInput_of_lt hindex)]
  split
  · exact ⟨_, rfl⟩
  · rw [bind_of_eq_ok hstripped, committed, bind_of_eq_ok (checkInput_of_lt hindex)]
    exact ⟨_, rfl⟩

/-! ### Inputs -/

/-- The inputs that are committed to along with the other ones, one by one. -/
theorem getElem?_committedInputs (h : hashType.anyoneCanPay = false) (j : Nat) :
  ((tx.committedInputs index hashType s).map Input.asRead)[j]?
    = tx.inputs[j]?.map fun input =>
      ⟨input.outpoint, .encoded (if j = index then s.bytes else []),
        if j = index ∨ hashType.outputs = .all then input.sequence else 0⟩
  := by
  rw [committedInputs, h, List.getElem?_map]
  simp only [Bool.false_eq_true, if_false, List.getElem?_mapIdx, Option.map_map]
  congr 1
  funext input
  simp only [Function.comp_apply]
  split
  · next hj => simp [Input.asRead, Script.asRead, hj]
  · split <;> simp [Input.asRead, Script.asRead, Script.empty, Script.bytes, *]

theorem length_committedInputs (h : hashType.anyoneCanPay = false) :
  (tx.committedInputs index hashType s).length = tx.inputs.length
  := by
  rw [committedInputs, h]
  apply List.length_mapIdx

/-- The input that is signed, when it is committed to alone. -/
theorem committedInputs_of_anyoneCanPay {input : Input} (h : hashType.anyoneCanPay = true)
    (hinput : tx.inputs[index]? = some input) :
  (tx.committedInputs index hashType s).map Input.asRead
    = [⟨input.outpoint, .encoded s.bytes, input.sequence⟩]
  := by
  rw [committedInputs, if_pos h, hinput]
  rfl

/-- The signed inputs agree in their outpoints, their scripts and their sequence numbers. -/
theorem committedInput_eq_iff
    (hanyone : hashType.anyoneCanPay = false) (h : index < tx.inputs.length)
    (h' : index < tx'.inputs.length) :
  ((tx.committedInputs index hashType s).map Input.asRead)[index]?
      = ((tx'.committedInputs index hashType s').map Input.asRead)[index]?
    ↔ tx.inputs[index]?.map Input.outpoint = tx'.inputs[index]?.map Input.outpoint
      ∧ tx.inputs[index]?.map Input.sequence = tx'.inputs[index]?.map Input.sequence
      ∧ s.bytes = s'.bytes
  := by
  rw [getElem?_committedInputs hanyone, getElem?_committedInputs hanyone,
    List.getElem?_eq_getElem h, List.getElem?_eq_getElem h']
  simp only [Option.map_some, Option.some.injEq, if_true, true_or, Input.mk.injEq,
    Script.encoded.injEq]
  rw [and_comm (a := s.bytes = s'.bytes)]

/-- Another input agrees in its outpoint, and in its sequence number along with all outputs. -/
theorem otherInput_eq_iff
    (hanyone : hashType.anyoneCanPay = false) {j : Nat} (hj : j ≠ index) :
  ((tx.committedInputs index hashType s).map Input.asRead)[j]?
      = ((tx'.committedInputs index hashType s').map Input.asRead)[j]?
    ↔ tx.inputs[j]?.map Input.outpoint = tx'.inputs[j]?.map Input.outpoint
      ∧ (hashType.outputs = .all →
        tx.inputs[j]?.map Input.sequence = tx'.inputs[j]?.map Input.sequence)
  := by
  rw [getElem?_committedInputs hanyone, getElem?_committedInputs hanyone]
  by_cases hall : hashType.outputs = .all
  · cases tx.inputs[j]? <;> cases tx'.inputs[j]? <;> simp [hj, hall]
  · cases tx.inputs[j]? <;> cases tx'.inputs[j]? <;> simp [hj, hall]

/-- The inputs that are committed to agree exactly if the signed ones do, and the other
ones unless they are left out. -/
theorem committedInputs_eq_iff (h : index < tx.inputs.length) (h' : index < tx'.inputs.length) :
  (tx.committedInputs index hashType s).map Input.asRead
      = (tx'.committedInputs index hashType s').map Input.asRead
    ↔ tx.inputs[index]?.map Input.outpoint = tx'.inputs[index]?.map Input.outpoint
      ∧ tx.inputs[index]?.map Input.sequence = tx'.inputs[index]?.map Input.sequence
      ∧ s.bytes = s'.bytes
      ∧ (hashType.anyoneCanPay = false → ∀ j ≠ index,
        tx.inputs[j]?.map Input.outpoint = tx'.inputs[j]?.map Input.outpoint
          ∧ (hashType.outputs = .all →
            tx.inputs[j]?.map Input.sequence = tx'.inputs[j]?.map Input.sequence))
  := by
  cases hanyone : hashType.anyoneCanPay with
  | true =>
    have hinput := List.getElem?_eq_getElem h
    have hinput' := List.getElem?_eq_getElem h'
    rw [committedInputs_of_anyoneCanPay hanyone hinput,
      committedInputs_of_anyoneCanPay hanyone hinput', hinput, hinput']
    simp only [List.cons.injEq, Input.mk.injEq, Script.encoded.injEq, Option.map_some,
      Option.some.injEq]
    tauto
  | false =>
    rw [List.ext_getElem?_iff]
    constructor
    · intro e
      obtain ⟨houtpoint, hsequence, hbytes⟩ := (committedInput_eq_iff hanyone h h').mp (e index)
      use houtpoint, hsequence, hbytes
      exact fun _ j hj => (otherInput_eq_iff hanyone hj).mp (e j)
    · rintro ⟨houtpoint, hsequence, hbytes, hothers⟩ j
      by_cases hj : j = index
      · subst hj
        apply (committedInput_eq_iff hanyone h h').mpr ⟨houtpoint, hsequence, hbytes⟩
      · apply (otherInput_eq_iff hanyone hj).mpr (hothers rfl j hj)

/-! ### Outputs -/

/-- The only output that is committed to stands behind blank ones. -/
theorem committedOutputs_of_single (hsingle : hashType.outputs = .single)
    (h : index < tx.outputs.length) :
  tx.committedOutputs index hashType = List.replicate index blankOutput ++ [tx.outputs[index]]
  := by
  have hkept : (tx.outputs.take (index + 1)).length - 1 = index := by
    rw [List.length_take]
    omega
  rw [committedOutputs, hsingle]
  dsimp only
  rw [hkept, List.take_succ_eq_append_getElem h, List.drop_left' (by simp; omega)]

/-- The outputs that are committed to agree exactly if all outputs do, or the one with the
index of the signed input, as the hash type says. -/
theorem committedOutputs_eq_iff
    (h : hashType.outputs = .single → index < tx.outputs.length)
    (h' : hashType.outputs = .single → index < tx'.outputs.length) :
  (tx.committedOutputs index hashType).map Output.asRead
      = (tx'.committedOutputs index hashType).map Output.asRead
    ↔ (hashType.outputs = .all → tx.outputs.map Output.asRead = tx'.outputs.map Output.asRead)
      ∧ (hashType.outputs = .single →
        tx.outputs[index]?.map Output.asRead = tx'.outputs[index]?.map Output.asRead)
  := by
  cases houtputs : hashType.outputs with
  | all => simp [committedOutputs, houtputs]
  | none => simp [committedOutputs, houtputs]
  | single =>
    rw [committedOutputs_of_single houtputs (h houtputs),
      committedOutputs_of_single houtputs (h' houtputs),
      List.getElem?_eq_getElem (h houtputs), List.getElem?_eq_getElem (h' houtputs)]
    simp

/-! ### The copy, and its form on the wire -/

/-- The copy of a transaction that a signature commits to. -/
def committedCopy (tx : Transaction) (index : Nat) (hashType : HashType) (subScript : Script) :
    Transaction :=
  { tx with
    inputs := tx.committedInputs index hashType subScript
    outputs := tx.committedOutputs index hashType }

/-- The preimage is the copy that is committed to, and the hash type. -/
theorem preimage_of_lt (h : index < tx.inputs.length) :
  tx.preimage index hashType s
    = .ok ((tx.committedCopy index hashType s).encode ++ Bytes.ofNatLE 4 hashType.toNat)
  := by
  rw [preimage, committed, bind_of_eq_ok (checkInput_of_lt h)]
  rfl

/-- Two copies are the same on the wire if the transactions agree in what is committed to. -/
theorem asRead_committedCopy_eq_iff
    (h : index < tx.inputs.length) (h' : index < tx'.inputs.length)
    (hsingle : hashType.outputs = .single → index < tx.outputs.length)
    (hsingle' : hashType.outputs = .single → index < tx'.outputs.length) :
  (tx.committedCopy index hashType s).asRead = (tx'.committedCopy index hashType s').asRead
    ↔ hashType.Agree index tx tx' ∧ s.bytes = s'.bytes
  := by
  have hkeep : hashType &&& 0x80 = 0 → hashType.anyoneCanPay = false :=
    HashType.anyoneCanPay_eq_false_iff.mpr
  rw [asRead, asRead, mk.injEq]
  constructor
  · rintro ⟨hversion, hinputs, houtputs, hlockTime⟩
    obtain ⟨houtpoint, hsequence, hbytes, hothers⟩ := (committedInputs_eq_iff h h').mp hinputs
    obtain ⟨hall, hone⟩ := (committedOutputs_eq_iff hsingle hsingle').mp houtputs
    refine ⟨⟨hversion, hlockTime, houtpoint, hsequence, ?_, ?_, ?_, ?_, ?_⟩, hbytes⟩
    · intro hmask
      have hlength := congrArg List.length hinputs
      rwa [List.length_map, List.length_map, committedCopy, committedCopy,
        length_committedInputs (hkeep hmask), length_committedInputs (hkeep hmask)] at hlength
    · exact fun hmask j hj => (hothers (hkeep hmask) j hj).1
    · exact fun hmask h₂ h₃ j hj =>
        (hothers (hkeep hmask) j hj).2 (HashType.outputs_eq_all_iff.mpr ⟨h₂, h₃⟩)
    · exact fun h₂ h₃ => hall (HashType.outputs_eq_all_iff.mpr ⟨h₂, h₃⟩)
    · exact fun h₃ => hone (HashType.outputs_eq_single_iff.mpr h₃)
  · rintro ⟨hagree, hbytes⟩
    refine ⟨hagree.version, ?_, ?_, hagree.lockTime⟩
    · apply (committedInputs_eq_iff h h').mpr
      use hagree.outpoint, hagree.sequence, hbytes
      intro hanyone j hj
      have hmask := HashType.anyoneCanPay_eq_false_iff.mp hanyone
      use hagree.otherOutpoints hmask j hj
      intro hall
      obtain ⟨h₂, h₃⟩ := HashType.outputs_eq_all_iff.mp hall
      apply hagree.otherSequences hmask h₂ h₃ j hj
    · apply (committedOutputs_eq_iff hsingle hsingle').mpr
      constructor
      · intro hall
        obtain ⟨h₂, h₃⟩ := HashType.outputs_eq_all_iff.mp hall
        apply hagree.outputs h₂ h₃
      · exact fun hone => hagree.output (HashType.outputs_eq_single_iff.mp hone)

/-- No other script than the one that is signed is in the copy. -/
theorem script_of_mem_committedInputs {input : Input}
    (h : input ∈ tx.committedInputs index hashType s) :
  input.script = s ∨ input.script = Script.empty
  := by
  rw [committedInputs] at h
  split at h
  · obtain ⟨_, _, rfl⟩ : ∃ source, tx.inputs[index]? = some source
        ∧ { source with script := s } = input := by
      simpa using h
    exact .inl rfl
  · obtain ⟨j, _, rfl⟩ := List.mem_mapIdx.mp h
    split
    · exact .inl rfl
    · split
      · exact .inr rfl
      · exact .inr rfl

theorem length_committedInputs_le :
  (tx.committedInputs index hashType s).length ≤ max 1 tx.inputs.length
  := by
  cases hanyone : hashType.anyoneCanPay with
  | true =>
    rw [committedInputs, if_pos hanyone]
    cases tx.inputs[index]? <;> simp
  | false =>
    rw [length_committedInputs hanyone]
    apply Nat.le_max_right _ _

/-- The outputs of the copy are those of the transaction, or blank. -/
theorem mem_committedOutputs {output : Output} (h : output ∈ tx.committedOutputs index hashType) :
  output ∈ tx.outputs ∨ output = blankOutput
  := by
  rw [committedOutputs] at h
  split at h
  · exact .inl h
  · cases h
  · rcases List.mem_append.mp h with hblank | hkept
    · exact .inr (List.eq_of_mem_replicate hblank)
    · exact .inl (List.mem_of_mem_take (List.mem_of_mem_drop hkept))

theorem length_committedOutputs_le :
  (tx.committedOutputs index hashType).length ≤ tx.outputs.length
  := by
  rw [committedOutputs]
  split
  · apply Nat.le_refl _
  · apply Nat.zero_le _
  · simp only [List.length_append, List.length_replicate, List.length_drop, List.length_take]
    omega

/-- The copy fits into compact sizes along with the transaction and the script. -/
theorem Fits.committedCopy (h : tx.Fits) (hs : s.bytes.length < UInt64.size) :
  (tx.committedCopy index hashType s).Fits
  := by
  have hempty : Script.empty.bytes.length < UInt64.size := by decide
  constructor
  · apply lt_of_le_of_lt length_committedInputs_le
    apply max_lt (by decide) h.inputs
  · apply lt_of_le_of_lt length_committedOutputs_le h.outputs
  · intro input hinput
    rcases script_of_mem_committedInputs hinput with e | e
    · rwa [e]
    · rwa [e]
  · intro output houtput
    rcases mem_committedOutputs houtput with hmem | rfl
    · apply h.outputScripts output hmem
    · apply hempty

/-! ### What is not committed to -/

/-- Only the last script that is put into an input counts. -/
theorem withScript_withScript (tx : Transaction) (index : Nat) (script script' : Script) :
  (tx.withScript index script).withScript index script' = tx.withScript index script'
  := by
  rw [withScript, withScript, withScript]
  congr 1
  rw [List.modify_modify_eq]
  rfl

theorem getElem?_withScript {input : Input} (h : tx.inputs[index]? = some input) (script : Script) :
  (tx.withScript index script).inputs[index]? = some { input with script }
  := by
  rw [withScript, List.getElem?_modify_eq, h]
  rfl

/-- A transaction without the scripts that unlock what it spends. -/
def withoutScripts (tx : Transaction) : Transaction :=
  { tx with inputs := tx.inputs.map fun input => { input with script := Script.empty } }

theorem withoutScripts_withScript (tx : Transaction) (index : Nat) (script : Script) :
  (tx.withScript index script).withoutScripts = tx.withoutScripts
  := by
  rw [withScript, withoutScripts, withoutScripts]
  congr 1
  apply List.ext_getElem?
  intro j
  simp only [List.getElem?_map, List.getElem?_modify]
  cases tx.inputs[j]? with
  | none => rfl
  | some input => by_cases hj : index = j <;> simp [hj]

theorem committedCopy_withoutScripts (tx : Transaction) :
  tx.withoutScripts.committedCopy index hashType s = tx.committedCopy index hashType s
  := by
  have hinputs : tx.withoutScripts.committedInputs index hashType s
      = tx.committedInputs index hashType s := by
    rw [committedInputs, committedInputs, withoutScripts]
    split
    · rw [List.getElem?_map, Option.map_map]
      rfl
    · apply List.mapIdx_eq_iff.mpr
      intro j
      rw [List.getElem?_mapIdx, List.getElem?_map, Option.map_map]
      rfl
  rw [committedCopy, hinputs]
  rfl

/-- What is committed to does not depend on the scripts of the inputs. -/
theorem committed_withoutScripts (tx : Transaction) :
  tx.withoutScripts.committed index hashType s = tx.committed index hashType s
  := by
  have hindex : tx.withoutScripts.checkInput index = tx.checkInput index := by
    rw [checkInput, checkInput, withoutScripts, List.length_map]
  have hcopy := @committedCopy_withoutScripts index hashType s tx
  rw [committed, committed, hindex]
  apply congrArg (fun copy => tx.checkInput index >>= fun _ => Except.ok copy) hcopy

/-- Nor does the digest. -/
theorem digest_withoutScripts (tx : Transaction) :
  tx.withoutScripts.digest index hashType s = tx.digest index hashType s
  := by
  have hindex : tx.withoutScripts.checkInput index = tx.checkInput index := by
    rw [checkInput, checkInput, withoutScripts, List.length_map]
  rw [digest, digest, hindex]
  simp only [committed_withoutScripts]
  rfl

/-- The digest of an input does not depend on the scripts of inputs. -/
theorem digest_withScript (tx : Transaction) {other : Nat} (script : Script) :
  (tx.withScript other script).digest index hashType s = tx.digest index hashType s
  := by
  rw [← digest_withoutScripts, withoutScripts_withScript, digest_withoutScripts]

/-! ### The two directions together -/

/-- The byte strings that are signed are equal exactly if the transactions agree in what
the hash type selects and the stripped scripts are equal. The scripts that unlock other
outputs never matter. -/
theorem preimage_eq_iff_agree :
  (∀ (tx tx' : Transaction) (index : Nat) (hashType : HashType) (s s' : Script),
    tx.Fits → tx'.Fits → s.bytes.length < UInt64.size → s'.bytes.length < UInt64.size →
    index < tx.inputs.length → index < tx'.inputs.length → s.Structured → s'.Structured →
    (hashType &&& 0x1f = 3 → index < tx.outputs.length ∧ index < tx'.outputs.length) →
    ∃ stripped stripped' bytes bytes',
      s.removeOp .codeSeparator = .ok stripped
      ∧ s'.removeOp .codeSeparator = .ok stripped'
      ∧ tx.preimage index hashType stripped = .ok bytes
      ∧ tx'.preimage index hashType stripped' = .ok bytes'
      ∧ tx.digest index hashType s = .ok (Digest.hash256 bytes)
      ∧ tx'.digest index hashType s' = .ok (Digest.hash256 bytes')
      ∧ (bytes = bytes' ↔ hashType.Agree index tx tx' ∧ stripped.bytes = stripped'.bytes))
    ∧ ∀ tx tx' : Transaction, tx.withoutScripts = tx'.withoutScripts →
      ∀ index hashType s, tx.digest index hashType s = tx'.digest index hashType s
  := by
  constructor
  · intro tx tx' index hashType s s' hfits hfits' hs hs' hindex hindex' hstructured hstructured'
      hsingle
    have hop : Opcode.codeSeparator.isDelimiter = false := rfl
    obtain ⟨stripped, hstripped, hle⟩ := hstructured.exists_removeOp hop
    obtain ⟨stripped', hstripped', hle'⟩ := hstructured'.exists_removeOp hop
    have hout : hashType.outputs = .single → index < tx.outputs.length :=
      fun h => (hsingle (HashType.outputs_eq_single_iff.mp h)).1
    have hout' : hashType.outputs = .single → index < tx'.outputs.length :=
      fun h => (hsingle (HashType.outputs_eq_single_iff.mp h)).2
    have hpreimage := @preimage_of_lt tx index hashType stripped hindex
    have hpreimage' := @preimage_of_lt tx' index hashType stripped' hindex'
    refine ⟨stripped, stripped', _, _, hstripped, hstripped', hpreimage, hpreimage', ?_, ?_, ?_⟩
    · apply digest_of_preimage _ hstripped hpreimage
      exact fun h => Nat.not_lt.mpr h.2 (hout h.1)
    · apply digest_of_preimage _ hstripped' hpreimage'
      exact fun h => Nat.not_lt.mpr h.2 (hout' h.1)
    · rw [encode_append_inj (hfits.committedCopy (lt_of_le_of_lt hle hs))
        (hfits'.committedCopy (lt_of_le_of_lt hle' hs')),
        asRead_committedCopy_eq_iff hindex hindex' hout hout', and_iff_left rfl]
  · intro tx tx' h index hashType s
    rw [← digest_withoutScripts tx, h, digest_withoutScripts]

/-- A signature for one input and one output alone is valid for both transactions. -/
theorem digest_eq_of_single_anyoneCanPay :
  let spent : Input := ⟨⟨FixedBytes.zero 32, 7⟩, Script.empty, 5⟩
  let added : Input := ⟨Outpoint.null, .encoded [0x51], 9⟩
  let paid : Output := ⟨1000, .encoded [0x6a]⟩
  let change : Output := ⟨20, Script.empty⟩
  let tx : Transaction := ⟨1, [added, spent], [change, paid], 0⟩
  let tx' : Transaction := ⟨1, [spent, spent, added], [paid, paid, change], 0⟩
  ∃ digest, tx.digest 1 0x83 (.encoded [0xac]) = .ok digest
    ∧ tx'.digest 1 0x83 (.encoded [0xab, 0xac]) = .ok digest
  := by
  intro spent added paid change tx tx'
  have hfits : tx.Fits := ⟨by decide, by decide, by decide, by decide⟩
  have hfits' : tx'.Fits := ⟨by decide, by decide, by decide, by decide⟩
  have hs : (Script.encoded [0xac]).Structured := Script.structured_encoded_iff.mpr ⟨_, rfl⟩
  have hs' : (Script.encoded [0xab, 0xac]).Structured := Script.structured_encoded_iff.mpr ⟨_, rfl⟩
  obtain ⟨stripped, stripped', bytes, bytes', hstripped, hstripped', _, _, hdigest, hdigest', e⟩ :=
    preimage_eq_iff_agree.1 tx tx' 1 0x83 _ _ hfits hfits' (by decide) (by decide) (by decide)
      (by decide) hs hs' (by decide)
  have hagree : HashType.Agree 0x83 1 tx tx' := by
    have hmask : ¬ (0x83 : HashType) &&& 0x80 = 0 := by decide
    exact ⟨rfl, rfl, rfl, rfl, fun h => absurd h hmask, fun h => absurd h hmask,
      fun h => absurd h hmask, fun _ h => absurd rfl h, fun _ => rfl⟩
  have hbytes : stripped.bytes = stripped'.bytes := by
    cases hstripped
    cases hstripped'
    rfl
  obtain rfl := e.mpr ⟨hagree, hbytes⟩
  exact ⟨_, hdigest, hdigest'⟩

end Transaction

end Bitcoin
