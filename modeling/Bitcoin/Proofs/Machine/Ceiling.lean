import Bitcoin.Proofs.Machine.Completion
import Bitcoin.Proofs.Machine.Context
import Bitcoin.Proofs.Machine.Ordinary

/-!
# The limit on the stacks

The size of the stacks is checked in front of each element of a program, and not behind the last
one that is executed. So an execution may end without an error and leave more items than the limit
allows (`Step.runScript_leaves_three`).

`Step.runScriptWithin` checks the size behind each element as well. It ends without an error exactly
if the execution does so and leaves no more items than allowed, which means that the limit is
exceeded at the end or never; and an execution that ends without an error leaves at most three items
too many (`Step.runScript_ceiling`).
-/

namespace Bitcoin

/-- Whether there are no more items on both stacks than the limit allows. -/
def Machine.Fits (m : Machine) : Prop :=
  m.size ≤ m.limits.stackSize

/-- Executes a program as `Program.run` does, and checks the size of the stacks behind each element,
too. -/
def Program.runWithin (program : Program) (depth : Nat) : Step Unit :=
  match program with
  | .done => return ()
  | .push p rest => do
    Step.element (Step.push (.bytes p.data))
    Step.checkSize
    Step.unlessStopped (rest.runWithin depth)
  | .op o rest => do
    Step.element (Step.execute o)
    Step.checkSize
    Step.unlessStopped (rest.runWithin depth)
  | .branch c body rest => do
    Step.checkSize
    let condition ← Step.popBool
    if c.takes condition then
      Step.enter depth
      body.runWithin (depth + 1)
    Step.unlessStopped (rest.runWithin depth)
  | .branchElse c body alternative rest => do
    Step.checkSize
    let condition ← Step.popBool
    Step.enter depth
    if c.takes condition then body.runWithin (depth + 1) else alternative.runWithin (depth + 1)
    Step.unlessStopped (rest.runWithin depth)

namespace Step

/-- Executes a script as `Step.runScript` does, and checks the size of the stacks behind each
element, too. -/
def runScriptWithin (script : Script) : Step Unit :=
  unlessStopped do
    let program ← ofExcept script.program
    program.runWithin 1

variable {m m' : Machine} {depth : Nat} {α : Type}

/-! ### Conditions -/

/-- A condition is refused, or it is taken from the stack, and what is left is not too much. -/
theorem fits_condition_cases (m : Machine) :
  (∃ e m', ∀ f : Bool → Step α, (checkSize >>= fun _ => popBool >>= f) m = .error e m')
    ∨ ∃ condition m₁, m₁.Fits
      ∧ ∀ f : Bool → Step α, (checkSize >>= fun _ => popBool >>= f) m = f condition m₁
  := by
  by_cases hm : m.Fits
  · cases hstack : m.stack with
    | nil =>
      left
      refine ⟨.execution .emptyStack, m, fun f => ?_⟩
      rw [bind_of_ok (checkSize_of_le hm), bind_of_error (popBool_of_nil hstack)]
    | cons item stack =>
      right
      refine ⟨item.toBool, { m with stack }, ?_, fun f => ?_⟩
      · simp only [Machine.Fits, Machine.size, hstack, List.length_cons] at hm ⊢
        omega
      · rw [bind_of_ok (checkSize_of_le hm), bind_of_ok (popBool_of_cons hstack)]
  · left
    exact ⟨_, _, fun f => bind_of_error (checkSize_of_lt (Nat.lt_of_not_le hm)) _⟩

/-! ### Where the limit can be exceeded -/

/-- Too many items are left only where nothing more is executed. -/
theorem eq_of_run_of_not_fits {p : Program} (hm : ¬ m.Fits) (h : p.run depth m = .ok () m') :
  m' = m
  := by
  have hfull := checkSize_of_lt (Nat.lt_of_not_le hm)
  have helement : ∀ body, element body m = .error (.execution (.tooManyItems m.size)) m :=
    fun body => bind_of_error hfull _
  cases p with
  | done =>
    cases h
    rfl
  | push p rest =>
    rw [Program.run, bind_of_error (helement _)] at h
    cases h
  | op o rest =>
    rw [Program.run, bind_of_error (helement _)] at h
    cases h
  | branch c body rest =>
    rw [Program.run, bind_of_error hfull] at h
    cases h
  | branchElse c body alternative rest =>
    rw [Program.run, bind_of_error hfull] at h
    cases h

/-- Nor is anything more executed by the rest of a program. -/
theorem eq_of_unlessStopped_of_not_fits {p : Program} (hm : ¬ m.Fits)
    (h : unlessStopped (p.run depth) m = .ok () m') :
  m' = m
  := by
  cases hstopped : m.stopped with
  | true =>
    rw [unlessStopped_of_stopped _ hstopped] at h
    cases h
    rfl
  | false =>
    rw [unlessStopped_of_running _ hstopped] at h
    apply eq_of_run_of_not_fits hm h

/-! ### Checking behind each element -/

/-- An element with the check behind it. -/
theorem bind_checkSize_eq_ok_iff {x : Step Unit} :
  (x >>= fun _ => checkSize) m = .ok () m' ↔ x m = .ok () m' ∧ m'.Fits
  := by
  rw [bind_eq_ok_iff]
  constructor
  · rintro ⟨_, m₁, hx, hcheck⟩
    by_cases hm₁ : m₁.Fits
    · rw [checkSize_of_le hm₁] at hcheck
      cases hcheck
      exact ⟨hx, hm₁⟩
    · rw [checkSize_of_lt (Nat.lt_of_not_le hm₁)] at hcheck
      cases hcheck
  · rintro ⟨hx, hm'⟩
    exact ⟨(), m', hx, checkSize_of_le hm'⟩

section Rest

variable {rest : Program} (ih : ∀ m₁ m', m₁.Fits →
  (rest.runWithin depth m₁ = .ok () m' ↔ rest.run depth m₁ = .ok () m' ∧ m'.Fits))

include ih

/-- What follows a part that leaves no more items than allowed. -/
theorem unlessStopped_runWithin_eq_ok_iff (hm : m.Fits) :
  unlessStopped (rest.runWithin depth) m = .ok () m'
    ↔ unlessStopped (rest.run depth) m = .ok () m' ∧ m'.Fits
  := by
  cases hstopped : m.stopped with
  | true =>
    rw [unlessStopped_of_stopped _ hstopped, unlessStopped_of_stopped _ hstopped]
    constructor
    · rintro ⟨⟩
      exact ⟨rfl, hm⟩
    · exact fun h => h.1
  | false =>
    rw [unlessStopped_of_running _ hstopped, unlessStopped_of_running _ hstopped]
    apply ih m m' hm

/-- A part, and what follows it. If the part leaves too many items, they are still there at the
end. -/
theorem bind_runWithin_eq_ok_iff {x y : Step Unit}
    (hxy : ∀ m₁, x m = .ok () m₁ ↔ y m = .ok () m₁ ∧ m₁.Fits) :
  (x >>= fun _ => unlessStopped (rest.runWithin depth)) m = .ok () m'
    ↔ (y >>= fun _ => unlessStopped (rest.run depth)) m = .ok () m' ∧ m'.Fits
  := by
  rw [bind_eq_ok_iff, bind_eq_ok_iff]
  constructor
  · rintro ⟨_, m₁, hx, h⟩
    obtain ⟨hy, hm₁⟩ := (hxy m₁).mp hx
    obtain ⟨h, hm'⟩ := (unlessStopped_runWithin_eq_ok_iff ih hm₁).mp h
    exact ⟨⟨(), m₁, hy, h⟩, hm'⟩
  · rintro ⟨⟨_, m₁, hy, h⟩, hm'⟩
    have hm₁ : m₁.Fits := by
      by_contra hm₁
      rw [eq_of_unlessStopped_of_not_fits hm₁ h] at hm'
      apply hm₁ hm'
    exact ⟨(), m₁, (hxy m₁).mpr ⟨hy, hm₁⟩,
      (unlessStopped_runWithin_eq_ok_iff ih hm₁).mpr ⟨h, hm'⟩⟩

end Rest

/-- A program ends without an error when the size is checked behind each element, if it does so
anyway and leaves no more items than allowed. -/
theorem runWithin_eq_ok_iff {p : Program} (hm : m.Fits) :
  p.runWithin depth m = .ok () m' ↔ p.run depth m = .ok () m' ∧ m'.Fits
  := by
  induction p generalizing depth m m' with
  | done =>
    constructor
    · rintro ⟨⟩
      exact ⟨rfl, hm⟩
    · exact fun h => h.1
  | push p rest ih =>
    rw [Program.runWithin, ← bind_assoc, Program.run]
    apply bind_runWithin_eq_ok_iff (fun _ _ => ih) fun _ => bind_checkSize_eq_ok_iff
  | op o rest ih =>
    rw [Program.runWithin, ← bind_assoc, Program.run]
    apply bind_runWithin_eq_ok_iff (fun _ _ => ih) fun _ => bind_checkSize_eq_ok_iff
  | branch c body rest ihBody ih =>
    rw [Program.runWithin, Program.run]
    rcases fits_condition_cases m with ⟨e, _, h⟩ | ⟨condition, m₁, hm₁, h⟩
    · rw [h, h]
      simp
    · rw [h, h]
      split
      · rw [enter_bind_eq_ok_iff, enter_bind_eq_ok_iff, and_assoc]
        apply and_congr_right
        intro _
        apply bind_runWithin_eq_ok_iff (fun _ _ => ih) fun _ => ihBody hm₁
      · apply unlessStopped_runWithin_eq_ok_iff (fun _ _ => ih) hm₁
  | branchElse c body alternative rest ihBody ihAlternative ih =>
    rw [Program.runWithin, Program.run]
    rcases fits_condition_cases m with ⟨e, _, h⟩ | ⟨condition, m₁, hm₁, h⟩
    · rw [h, h]
      simp
    · rw [h, h, enter_bind_eq_ok_iff, enter_bind_eq_ok_iff, and_assoc]
      apply and_congr_right
      intro _
      split
      · apply bind_runWithin_eq_ok_iff (fun _ _ => ih) fun _ => ihBody hm₁
      · apply bind_runWithin_eq_ok_iff (fun _ _ => ih) fun _ => ihAlternative hm₁

/-! ### How far the limit can be exceeded -/

/-- An element that is executed puts at most three items on the stacks. -/
theorem size_le_of_element {body : Step Unit} (hcontext : KeepsContext body)
    (hbody : ∀ {m'}, body m = .ok () m' → m'.size ≤ m.size + 3)
    (h : element body m = .ok () m') :
  m'.size ≤ m'.limits.stackSize + 3
  := by
  obtain ⟨hm, h⟩ := checkSize_bind_eq_ok_iff.mp h
  have hsize := hbody h
  rw [(hcontext.of_ok h).limits]
  omega

/-- If an element leaves at most three items too many, so do the element and what follows it. -/
theorem size_le_of_bind_run {x : Step Unit} {rest : Program}
    (hx : ∀ m₁, x m = .ok () m₁ → m₁.size ≤ m₁.limits.stackSize + 3)
    (ih : ∀ m₁ m', m₁.Fits → rest.run depth m₁ = .ok () m' → m'.size ≤ m'.limits.stackSize + 3)
    (h : (x >>= fun _ => unlessStopped (rest.run depth)) m = .ok () m') :
  m'.size ≤ m'.limits.stackSize + 3
  := by
  obtain ⟨_, m₁, hfirst, hrest⟩ := bind_eq_ok_iff.mp h
  by_cases hm₁ : m₁.Fits
  · cases hstopped : m₁.stopped with
    | true =>
      rw [unlessStopped_of_stopped _ hstopped] at hrest
      cases hrest
      apply hx _ hfirst
    | false =>
      rw [unlessStopped_of_running _ hstopped] at hrest
      apply ih m₁ m' hm₁ hrest
  · rw [eq_of_unlessStopped_of_not_fits hm₁ hrest]
    apply hx m₁ hfirst

/-- What a program leaves is at most three items too many. -/
theorem size_le_of_run {p : Program} (hm : m.Fits) (h : p.run depth m = .ok () m') :
  m'.size ≤ m'.limits.stackSize + 3
  := by
  induction p generalizing depth m m' with
  | done =>
    cases h
    apply Nat.le_add_right_of_le hm
  | push p rest ih =>
    rw [Program.run] at h
    have hpush : Ordinary 3 (push (.bytes p.data)) :=
      Obeys.ordinary (.mono (.push trivial) (by decide))
    apply size_le_of_bind_run (fun _ => size_le_of_element (.push _) (hpush m).size_le)
      (fun _ _ => ih) h
  | op o rest ih =>
    rw [Program.run] at h
    apply size_le_of_bind_run (fun _ => size_le_of_element (.execute o) size_le_of_execute)
      (fun _ _ => ih) h
  | branch c body rest ihBody ih =>
    rw [Program.run] at h
    rcases fits_condition_cases m with ⟨e, _, hcondition⟩ | ⟨condition, m₁, hm₁, hcondition⟩
    · rw [hcondition] at h
      cases h
    · rw [hcondition] at h
      split at h
      · apply size_le_of_bind_run (fun _ => ihBody hm₁) (fun _ _ => ih)
          (enter_bind_eq_ok_iff.mp h).2
      · apply @size_le_of_bind_run m₁ m' depth (pure ()) rest _ (fun _ _ => ih) h
        rintro _ ⟨⟩
        apply Nat.le_add_right_of_le hm₁
  | branchElse c body alternative rest ihBody ihAlternative ih =>
    rw [Program.run] at h
    rcases fits_condition_cases m with ⟨e, _, hcondition⟩ | ⟨condition, m₁, hm₁, hcondition⟩
    · rw [hcondition] at h
      cases h
    · rw [hcondition, enter_bind_eq_ok_iff] at h
      obtain ⟨_, h⟩ := h
      split at h
      · apply size_le_of_bind_run (fun _ => ihBody hm₁) (fun _ _ => ih) h
      · apply size_le_of_bind_run (fun _ => ihAlternative hm₁) (fun _ _ => ih) h

/-! ### Scripts -/

/-- What follows is executed unless the machine has stopped. -/
theorem unlessStopped_eq_ok_iff {x : Step Unit} :
  unlessStopped x m = .ok () m'
    ↔ (m.stopped = true ∧ m' = m) ∨ (m.stopped = false ∧ x m = .ok () m')
  := by
  cases hm : m.stopped with
  | true =>
    rw [unlessStopped_of_stopped x hm]
    simp [eq_comm]
  | false =>
    rw [unlessStopped_of_running x hm]
    simp

/-- A script ends without an error when the size is checked behind each element, if it does so
anyway and leaves no more items than allowed. -/
theorem runScriptWithin_eq_ok_iff {script : Script} (hm : m.Fits) :
  runScriptWithin script m = .ok () m' ↔ runScript script m = .ok () m' ∧ m'.Fits
  := by
  rw [runScriptWithin, runScript_eq, unlessStopped_eq_ok_iff, unlessStopped_eq_ok_iff,
    ofExcept_bind_eq_ok_iff, ofExcept_bind_eq_ok_iff]
  constructor
  · rintro (⟨hstopped, rfl⟩ | ⟨hstopped, p, hp, h⟩)
    · exact ⟨.inl ⟨hstopped, rfl⟩, hm⟩
    · obtain ⟨h, hm'⟩ := (runWithin_eq_ok_iff hm).mp h
      exact ⟨.inr ⟨hstopped, p, hp, h⟩, hm'⟩
  · rintro ⟨⟨hstopped, rfl⟩ | ⟨hstopped, p, hp, h⟩, hm'⟩
    · exact .inl ⟨hstopped, rfl⟩
    · exact .inr ⟨hstopped, p, hp, (runWithin_eq_ok_iff hm).mpr ⟨h, hm'⟩⟩

/-- What a script leaves is at most three items too many. -/
theorem size_le_of_runScript {script : Script} (hm : m.Fits) (h : runScript script m = .ok () m') :
  m'.size ≤ m'.limits.stackSize + 3
  := by
  rw [runScript_eq, unlessStopped_eq_ok_iff, ofExcept_bind_eq_ok_iff] at h
  rcases h with ⟨_, rfl⟩ | ⟨_, p, _, h⟩
  · apply Nat.le_add_right_of_le hm
  · apply size_le_of_run hm h

/-- An execution that begins with no more items on the stacks than allowed, and ends without an
error, leaves at most three items too many. It ends without an error also when the size is checked
behind each element if and only if it leaves none too many: no execution exceeds the limit and gets
below it again. -/
theorem runScript_ceiling {script : Script} (hm : m.size ≤ m.limits.stackSize) :
  (∀ m', runScript script m = .ok () m' → m'.size ≤ m.limits.stackSize + 3)
    ∧ ∀ m', runScriptWithin script m = .ok () m'
      ↔ runScript script m = .ok () m' ∧ m'.size ≤ m.limits.stackSize
  := by
  have hlimits : ∀ {m'}, runScript script m = .ok () m' → m'.limits = m.limits :=
    fun h => ((KeepsContext.runScript script).of_ok h).limits
  constructor
  · intro m' h
    rw [← hlimits h]
    apply size_le_of_runScript hm h
  · intro m'
    rw [runScriptWithin_eq_ok_iff hm]
    apply and_congr_right
    intro h
    rw [Machine.Fits, hlimits h]

/-- Three items are repeated where three are allowed, and no check finds fault with it. -/
theorem runScript_ceiling_dup3 :
  let m : Machine := { Machine.initial with limits := ⟨3, 256, 4⟩ }
  let script := Script.encoded [0x51, 0x52, 0x53, 0x6f]
  ∃ m', runScript script m = .ok () m' ∧ m'.size = m.limits.stackSize + 3
    ∧ ∀ m'', runScriptWithin script m ≠ .ok () m''
  := by
  intro m script
  have hm : m.size ≤ m.limits.stackSize := by decide
  have hrun : runScript script m = .ok () { m with
      stack := [.number 3, .number 2, .number 1, .number 3, .number 2, .number 1] } := by
    rw [runScript_eq]
    rfl
  obtain ⟨hle, hwithin⟩ := @runScript_ceiling m script hm
  refine ⟨_, hrun, Nat.le_antisymm (hle _ hrun) (by decide), fun m'' h => ?_⟩
  obtain ⟨h, hsize⟩ := (hwithin m'').mp h
  cases hrun.symm.trans h
  revert hsize
  decide

/-- A script may leave more items than allowed and end without an error. -/
theorem runScript_leaves_three :
  let m : Machine := { Machine.initial with limits := ⟨2, 256, 4⟩ }
  m.size ≤ m.limits.stackSize
    ∧ ∃ m', runScript (.encoded [0x51, 0x52, 0x53]) m = .ok () m' ∧ m'.limits.stackSize < m'.size
  := by
  intro m
  refine ⟨by decide, { m with stack := [.number 3, .number 2, .number 1] }, ?_, by decide⟩
  rw [runScript_eq]
  rfl

end Step

end Bitcoin
