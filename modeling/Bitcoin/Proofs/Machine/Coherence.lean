import Bitcoin.Proofs.Machine.Ordinary
import Bitcoin.Proofs.Script.Coherence
import Bitcoin.Proofs.Script.Flat

/-!
# Executing scripts with the same bytes

Scripts with the same bytes are equal, and yet an assembled script need not be executed as its bytes
are: an opcode that introduces data may be among its tokens, and fails when it is executed
(`Step.runScript_pushData1`). If no such opcode is put into scripts, then scripts with the same
bytes have the same tokens and text and are executed in the same way, and no opcode that gives
scripts their structure is ever executed (`Step.runScript_of_same`).
-/

namespace Bitcoin

namespace Program

/-- The opcodes of a program are among its tokens. -/
theorem op_mem_tokens {p : Program} {o : Opcode} (h : o ∈ p.opcodes) :
  .op o ∈ p.tokens
  := by
  induction p with
  | done => cases h
  | push p rest ih => exact List.mem_cons_of_mem _ (ih h)
  | op o' rest ih =>
    rcases List.mem_cons.mp h with rfl | h
    · exact List.mem_cons_self
    · exact List.mem_cons_of_mem _ (ih h)
  | branch c body rest ihBody ih =>
    rw [opcodes, List.mem_append] at h
    rw [tokens, List.mem_cons, List.mem_append, List.mem_cons]
    exact .inr (h.imp ihBody fun h => .inr (ih h))
  | branchElse c body alternative rest ihBody ihAlternative ih =>
    rw [opcodes, List.mem_append, List.mem_append] at h
    rw [tokens, List.mem_cons, List.mem_append, List.mem_cons, List.mem_append, List.mem_cons]
    exact .inr (h.imp ihBody fun h => .inr (h.imp ihAlternative fun h => .inr (ih h)))

/-- The delimiters of a program are in its conditionals, and not among its opcodes. -/
theorem Nested.isDelimiter_eq_false {room : Nat} {p : Program} (hp : p.Nested room) {o : Opcode}
    (h : o ∈ p.opcodes) :
  o.isDelimiter = false
  := by
  induction hp with
  | done => cases h
  | push _ ih => exact ih h
  | op ho _ ih =>
    rcases List.mem_cons.mp h with rfl | h
    · exact ho
    · exact ih h
  | branch _ _ ihBody ih =>
    rcases List.mem_append.mp h with h | h
    · exact ihBody h
    · exact ih h
  | branchElse _ _ _ ihBody ihAlternative ih =>
    rcases List.mem_append.mp h with h | h
    · exact ihBody h
    · rcases List.mem_append.mp h with h | h
      · exact ihAlternative h
      · exact ih h

end Program

/-- No opcode of a coherent script stands for a part of the structure of scripts. -/
theorem Script.Coherent.isStructural_eq_false {script : Script} (h : script.Coherent) {p : Program}
    (hp : script.program = .ok p) {o : Opcode} (ho : o ∈ p.opcodes) :
  o.isStructural = false
  := by
  have hnested : p.Nested Program.maximumDepth := by
    rw [h] at hp
    apply (program_encoded_eq_ok_iff.mp hp).2
  rw [Opcode.isStructural_eq_false_iff]
  use hnested.isDelimiter_eq_false ho
  apply h.readable (tokens_eq_ok_iff.mpr ⟨p, hp, rfl⟩) _ (Program.op_mem_tokens ho)

namespace Step

/-- Executing a coherent script does not fail because an opcode that gives scripts their structure
was to be executed. -/
theorem isStructural_eq_false_of_runScript {script : Script} (h : script.Coherent) {m m' : Machine}
    {e : Error} (hrun : runScript script m = .error e m') :
  e.isStructural = false
  := by
  obtain ⟨_, hobeys⟩ := Obeys.runScript fun p (hp : script.program = .ok p) =>
    Law.admits_ordinary fun _ ho => h.isStructural_eq_false hp ho
  exact (hobeys.ordinary m).error hrun

/-- Scripts that are built from tokens that can be read from their bytes, and are equal, have the
same structure, tokens and text, and executing them has the same result on each machine. The opcodes
that give scripts their structure are not among those that are executed, and none of them is the
cause of an error. -/
theorem runScript_of_same {a b : Script} (ha : a.BuiltFrom Token.Readable)
    (hb : b.BuiltFrom Token.Readable) (h : a.same b = true) :
  (a.tokens = b.tokens ∧ a.program = b.program ∧ a.text = b.text ∧ runScript a = runScript b)
    ∧ (∀ p, a.program = .ok p → ∀ o ∈ p.opcodes, o.isStructural = false)
    ∧ ∀ m e m', runScript a m = .error e m' → e.isStructural = false
  := by
  have hprogram : a.program = b.program := ha.coherent.program_eq hb.coherent (beq_iff_eq.mp h)
  have htokens : a.tokens = b.tokens := by
    rw [Script.tokens, Script.tokens, hprogram]
  have htext : a.text = b.text := by
    rw [Script.text, Script.text, htokens]
  have hrun : runScript a = runScript b := by
    rw [runScript, runScript, hprogram]
  refine ⟨⟨htokens, hprogram, htext, hrun⟩, fun p hp o ho => ?_, fun m e m' hm => ?_⟩
  · apply ha.coherent.isStructural_eq_false hp ho
  · apply isStructural_eq_false_of_runScript ha.coherent hm

/-- A push that is put into a script is read again from the bytes. -/
theorem runScript_of_same_inserted :
  let token := Token.push ⟨.data1, [0xac]⟩
  let a := Script.assembled (.op .one (.push ⟨.data1, [0xac]⟩ .done))
  let b := Script.encoded [0x51, 0x4c, 0x01, 0xac]
  (Script.encoded [0x51]).insert 1 token = .ok a ∧ a ≠ b
    ∧ a.tokens = b.tokens ∧ runScript a = runScript b
  := by
  intro token a b
  have hedited : (Script.encoded [0x51]).insert 1 token = .ok a :=
    eq_ok_of_toOption (by decide +kernel)
  have ha : a.BuiltFrom Token.Readable := .insert 1 (.encoded [0x51]) (by decide) hedited
  obtain ⟨⟨htokens, _, _, hrun⟩, _⟩ :=
    runScript_of_same ha (.encoded _) (b := b) (by decide +kernel)
  exact ⟨hedited, by decide, htokens, hrun⟩

/-- An opcode that introduces data may be put into a script, and is not read again from the
bytes. -/
theorem runScript_pushData1 :
  let a := Script.assembled (.op .pushData1 (.op .zero .done))
  let b := Script.encoded [0x4c, 0x00]
  Script.ofTokens [.op .pushData1, .op .zero] = .ok a ∧ a.same b = true
    ∧ a.tokens ≠ b.tokens ∧ a.program ≠ b.program ∧ a.text ≠ b.text
    ∧ runScript a Machine.initial
      = .error (.execution (.structuralOpcode .pushData1)) Machine.initial
    ∧ runScript b Machine.initial = .ok () { Machine.initial with stack := [.bytes []] }
  := by
  intro a b
  have hdecode : Token.decodeAll b.bytes = .ok [.push ⟨.data1, []⟩] :=
    eq_ok_of_toOption (by decide +kernel)
  have hb : b.program = .ok (.push ⟨.data1, []⟩ .done) :=
    Script.program_encoded_eq_ok_iff.mpr ⟨hdecode, .push .done⟩
  have htokens : b.tokens = .ok [.push ⟨.data1, []⟩] := Script.tokens_eq_ok_iff.mpr ⟨_, hb, rfl⟩
  have ha : a.program = .ok (.op .pushData1 (.op .zero .done)) := rfl
  refine ⟨rfl, by decide +kernel, ?_, ?_, ?_, ?_, ?_⟩
  · rw [htokens]
    rintro ⟨⟩
  · rw [hb]
    rintro ⟨⟩
  · rw [Script.text_of_tokens htokens]
    intro h
    have htext := Except.ok.inj h
    revert htext
    decide +kernel
  · rw [runScript_eq_unlessStopped ha]
    rfl
  · rw [runScript_eq_unlessStopped hb]
    rfl

end Step

end Bitcoin
