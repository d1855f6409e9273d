import Bitcoin.Proofs.Machine.Frames
import Bitcoin.Proofs.Script.Edit

/-!
# Scripts one after the other

Byte strings that are scripts are a script when put together: its program is the first one
followed by the second (`Script.program_append`). Executing it is executing the one and then the
other (`Step.runScript_append`), since nothing but the machine is handed on from one element of a
program to the next, and a machine that has stopped skips what is left of a program just as it
skips a whole script.
-/

namespace Bitcoin

/-- Scripts put together are taken apart into the tokens of both, and their conditionals stay
balanced. -/
theorem Script.program_append {a b : Bytes} {p q : Program}
    (ha : (encoded a).program = .ok p) (hb : (encoded b).program = .ok q) :
  (encoded (a ++ b)).program = .ok (p.append q)
  := by
  obtain ⟨hp, hpNested⟩ := program_encoded_eq_ok_iff.mp ha
  obtain ⟨hq, hqNested⟩ := program_encoded_eq_ok_iff.mp hb
  obtain ⟨rfl, hpReadable⟩ := Token.decodeAll_eq_ok_iff.mp hp
  obtain ⟨rfl, hqReadable⟩ := Token.decodeAll_eq_ok_iff.mp hq
  apply program_encoded_eq_ok_iff.mpr
  refine ⟨Token.decodeAll_eq_ok_iff.mpr ⟨?_, ?_⟩, hpNested.append hqNested⟩
  · rw [Program.tokens_append, Token.encodeAll_append]
  · rw [Program.tokens_append]
    exact List.forall_mem_append.mpr ⟨hpReadable, hqReadable⟩

namespace Step

/-- A stopped machine skips what follows at once or in two parts. -/
theorem unlessStopped_bind (x y : Step Unit) :
  unlessStopped (x >>= fun _ => unlessStopped y)
    = unlessStopped x >>= fun _ => unlessStopped y
  := by
  funext m
  cases hm : m.stopped with
  | true =>
    rw [unlessStopped_of_stopped _ hm, bind_of_ok (unlessStopped_of_stopped x hm),
      unlessStopped_of_stopped y hm]
  | false =>
    rw [unlessStopped_of_running _ hm, bind_congr_left (unlessStopped_of_running x hm)]

/-- A program followed by another one is executed by executing the one and then the other. -/
theorem unlessStopped_run_append (p q : Program) (depth : Nat) :
  unlessStopped ((p.append q).run depth)
    = unlessStopped (p.run depth) >>= fun _ => unlessStopped (q.run depth)
  := by
  rw [← unlessStopped_bind]
  induction p with
  | done =>
    funext m
    cases hm : m.stopped with
    | true => rw [unlessStopped_of_stopped _ hm, unlessStopped_of_stopped _ hm]
    | false =>
      rw [unlessStopped_of_running _ hm, unlessStopped_of_running _ hm]
      symm
      apply unlessStopped_of_running _ hm
  | push p rest ih =>
    rw [Program.append, Program.run, ih, unlessStopped_bind (rest.run depth), Program.run,
      bind_assoc]
  | op o rest ih =>
    rw [Program.append, Program.run, ih, unlessStopped_bind (rest.run depth), Program.run,
      bind_assoc]
  | branch c body rest _ ih =>
    rw [Program.append, Program.run, ih, unlessStopped_bind (rest.run depth), Program.run]
    simp only [bind_assoc]
    congr 2
    funext _
    congr 1
    funext condition
    split
    · simp only [bind_assoc]
    · rfl
  | branchElse c body alternative rest _ _ ih =>
    rw [Program.append, Program.run, ih, unlessStopped_bind (rest.run depth), Program.run]
    simp only [bind_assoc]
    congr 2
    funext _
    congr 1
    funext condition
    congr 1
    funext _
    split
    · simp only [bind_assoc]
    · simp only [bind_assoc]

/-- Scripts put together are a script, whose program is the one of the first followed by the one of
the second. To execute it on any machine, with any limits, is to execute the first script and then,
if that ends without an error, the second one; if the first one stops the machine, nothing of the
second one is executed. -/
theorem runScript_append {a b : Bytes} {p q : Program}
    (ha : (Script.encoded a).program = .ok p) (hb : (Script.encoded b).program = .ok q) :
  (Script.encoded (a ++ b)).program = .ok (p.append q)
    ∧ (Script.encoded (a ++ b)).tokens = .ok (p.tokens ++ q.tokens)
    ∧ (runScript (.encoded (a ++ b)) = do
        runScript (.encoded a)
        runScript (.encoded b))
    ∧ ∀ m m' : Machine, runScript (.encoded a) m = .ok () m' → m'.stopped = true →
      runScript (.encoded (a ++ b)) m = .ok () m'
  := by
  have hprogram := Script.program_append ha hb
  have htokens := Script.tokens_eq_ok_iff.mpr ⟨_, hprogram, Program.tokens_append p q⟩
  have happend : runScript (.encoded (a ++ b))
      = runScript (.encoded a) >>= fun _ => runScript (.encoded b) := by
    rw [runScript_eq_unlessStopped hprogram, runScript_eq_unlessStopped ha,
      runScript_eq_unlessStopped hb]
    apply unlessStopped_run_append p q 1
  refine ⟨hprogram, htokens, happend, ?_⟩
  intro m m' hfirst hstopped
  rw [happend, bind_of_ok hfirst]
  apply unlessStopped_of_stopped _ hstopped

/-- A script that fails in the middle of a conditional is followed by one that is not executed. -/
theorem runScript_append_returnFail :
  (Script.encoded ([0x51, 0x63, 0x52, 0x6a, 0x53, 0x68] ++ [0x93])).program
      = .ok (.op .one (.branch .ifTrue (.op .two (.op .returnFail (.op .three .done)))
        (.op .add .done)))
    ∧ runScript (.encoded ([0x51, 0x63, 0x52, 0x6a, 0x53, 0x68] ++ [0x93])) Machine.initial
      = .ok () { Machine.initial with stack := [.number 2], stopped := true }
  := by
  have ha : (Script.encoded [0x51, 0x63, 0x52, 0x6a, 0x53, 0x68]).program
      = .ok (.op .one (.branch .ifTrue (.op .two (.op .returnFail (.op .three .done))) .done)) := by
    rfl
  have hb : (Script.encoded [0x93]).program = .ok (.op .add .done) := by
    rfl
  obtain ⟨hprogram, -, -, hstop⟩ := runScript_append ha hb
  have hfirst : runScript (.encoded [0x51, 0x63, 0x52, 0x6a, 0x53, 0x68]) Machine.initial
      = .ok () { Machine.initial with stack := [.number 2], stopped := true } := by
    rw [runScript_eq]
    rfl
  exact ⟨hprogram, hstop _ _ hfirst rfl⟩

end Step

end Bitcoin
