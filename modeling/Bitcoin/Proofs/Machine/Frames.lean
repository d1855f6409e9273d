import Bitcoin.Proofs.Machine.Step

/-!
# Executing programs by recursion

`Step.runFrames` keeps the programs that have been begun in a list. A program can as well be
executed by recursion on its parts, the depth of the conditionals around it being handed down
(`Program.run`). Both come to the same end (`Step.runFrames_cons`), so a script is executed by
recursion on its program (`Step.runScript_eq`), and what holds of executions is shown by
induction on programs.
-/

namespace Bitcoin

/-- Executes a program whose conditionals are at the given depth. -/
def Program.run (program : Program) (depth : Nat) : Step Unit :=
  match program with
  | .done => return ()
  | .push p rest => do
    Step.element (Step.push (.bytes p.data))
    Step.unlessStopped (rest.run depth)
  | .op o rest => do
    Step.element (Step.execute o)
    Step.unlessStopped (rest.run depth)
  | .branch c body rest => do
    Step.checkSize
    let condition ← Step.popBool
    if c.takes condition then
      Step.enter depth
      body.run (depth + 1)
    Step.unlessStopped (rest.run depth)
  | .branchElse c body alternative rest => do
    Step.checkSize
    let condition ← Step.popBool
    Step.enter depth
    if c.takes condition then body.run (depth + 1) else alternative.run (depth + 1)
    Step.unlessStopped (rest.run depth)

namespace Step

/-- Steps that are the same until one of them has stopped the machine may be executed unless it has
stopped before. -/
theorem unlessStopped_eq_bind {x y z : Step Unit}
    (h : ∀ m : Machine, m.stopped = false → x m = (y >>= fun _ => unlessStopped z) m) :
  unlessStopped x = (unlessStopped y >>= fun _ => unlessStopped z)
  := by
  funext m
  cases hm : m.stopped with
  | true =>
    rw [unlessStopped_of_stopped x hm, bind_of_ok (unlessStopped_of_stopped y hm),
      unlessStopped_of_stopped z hm]
  | false =>
    rw [unlessStopped_of_running x hm, h m hm]
    exact (bind_congr_left (unlessStopped_of_running y hm) _).symm

/-- A part of a conditional is entered, and executed with what follows it in its frames, or it is
too deep. -/
theorem enter_bind_runFrames {m : Machine} (hm : m.stopped = false) {part : Program}
    {frames : List Program} {next : Step Unit} {depth : Nat}
    (h : ∀ m : Machine, m.stopped = false →
      runFrames (part :: frames) m = (part.run (depth + 1) >>= fun _ => next) m) :
  (enter depth >>= fun _ => unlessStopped (runFrames (part :: frames))) m
    = (enter depth >>= fun _ => part.run (depth + 1) >>= fun _ => next) m
  := by
  rcases Nat.lt_or_ge m.limits.branchDepth depth with hdepth | hdepth
  · rw [bind_of_error (enter_of_lt hdepth), bind_of_error (enter_of_lt hdepth)]
  · rw [bind_of_ok (enter_of_le hdepth), bind_of_ok (enter_of_le hdepth),
      unlessStopped_of_running _ hm, h m hm]

/-- The innermost program is executed by recursion, before those around it. -/
theorem runFrames_cons {m : Machine} (hm : m.stopped = false) (p : Program)
    (frames : List Program) :
  runFrames (p :: frames) m
    = (p.run (frames.length + 1) >>= fun _ => unlessStopped (runFrames frames)) m
  := by
  induction p generalizing frames m with
  | done =>
    rw [runFrames]
    exact (unlessStopped_of_running _ hm).symm
  | push p rest ih =>
    rw [runFrames, Program.run, bind_assoc, unlessStopped_eq_bind fun _ h => ih h frames]
  | op o rest ih =>
    rw [runFrames, Program.run, bind_assoc, unlessStopped_eq_bind fun _ h => ih h frames]
  | branch c body rest ihBody ih =>
    have hrest := unlessStopped_eq_bind fun _ h => ih h frames
    rw [runFrames, Program.run]
    simp only [bind_assoc]
    rcases condition_cases m with ⟨e, m', h⟩ | ⟨condition, m', hstopped, -, h⟩
    · rw [h, h]
    · rw [h, h]
      split
      · simp only [bind_assoc]
        rw [← hrest]
        exact enter_bind_runFrames (hstopped.trans hm) fun _ h => ihBody h (rest :: frames)
      · rw [hrest]
  | branchElse c body alternative rest ihBody ihAlternative ih =>
    have hrest := unlessStopped_eq_bind fun _ h => ih h frames
    rw [runFrames, Program.run]
    simp only [bind_assoc]
    rcases condition_cases m with ⟨e, m', h⟩ | ⟨condition, m', hstopped, -, h⟩
    · rw [h, h]
    · rw [h, h]
      split
      · simp only [bind_assoc]
        rw [← hrest]
        exact enter_bind_runFrames (hstopped.trans hm) fun _ h => ihBody h (rest :: frames)
      · simp only [bind_assoc]
        rw [← hrest]
        exact enter_bind_runFrames (hstopped.trans hm) fun _ h => ihAlternative h (rest :: frames)

/-- A single program is executed outside of all conditionals. -/
theorem runFrames_singleton {m : Machine} (hm : m.stopped = false) (p : Program) :
  runFrames [p] m = p.run 1 m
  := by
  have hlast : unlessStopped (runFrames []) = return () := by
    funext m
    cases hm : m.stopped with
    | true => exact unlessStopped_of_stopped _ hm
    | false =>
      rw [unlessStopped_of_running _ hm, runFrames]
  calc
    runFrames [p] m
      = (p.run 1 >>= fun _ => unlessStopped (runFrames [])) m := runFrames_cons hm p []
    _ = p.run 1 m := by rw [hlast, bind_pure_unit]

/-- A script is executed by recursion on its program, unless the machine has stopped. -/
theorem runScript_eq (script : Script) :
  runScript script = unlessStopped (ofExcept script.program >>= fun program => program.run 1)
  := by
  funext m
  rw [runScript]
  cases hm : m.stopped with
  | true => rw [unlessStopped_of_stopped _ hm, unlessStopped_of_stopped _ hm]
  | false =>
    rw [unlessStopped_of_running _ hm, unlessStopped_of_running _ hm]
    cases script.program with
    | error e => rfl
    | ok p => exact runFrames_singleton hm p

/-- So a script whose program is known is executed by it. -/
theorem runScript_eq_unlessStopped {script : Script} {program : Program}
    (h : script.program = .ok program) :
  runScript script = unlessStopped (program.run 1)
  := by
  rw [runScript_eq, h]
  rfl

end Step

end Bitcoin
