import Bitcoin.Machine.Run

/-!
# Evaluating executions

The equations by which an execution is evaluated on a machine: of a sequence of steps the
first one decides how to go on, and a stopped machine is left as it is.
-/

namespace Bitcoin.Step

variable {α β : Type} {m m' : Machine}

/-- After a step that succeeds, the next one starts where it has ended. -/
theorem bind_of_ok {x : Step α} {a : α} (h : x m = .ok a m') (f : α → Step β) :
  (x >>= f) m = f a m'
  := by
  change EStateM.bind x f m = _
  rw [EStateM.bind, h]

/-- After a step that fails, nothing is executed. -/
theorem bind_of_error {x : Step α} {e : Error} (h : x m = .error e m') (f : α → Step β) :
  (x >>= f) m = .error e m'
  := by
  change EStateM.bind x f m = _
  rw [EStateM.bind, h]

theorem unlessStopped_of_running (next : Step Unit) (hm : m.stopped = false) :
  unlessStopped next m = next m
  := by
  rw [unlessStopped, hm]
  rfl

/-- A machine that has stopped executes nothing, which is no error. -/
theorem unlessStopped_of_stopped (next : Step Unit) (hm : m.stopped = true) :
  unlessStopped next m = .ok () m
  := by
  rw [unlessStopped, hm]
  rfl

theorem checkSize_of_le (h : m.size ≤ m.limits.stackSize) :
  checkSize m = .ok () m
  := by
  change (if _ then _ else _ : Step Unit) m = _
  rw [if_neg (Nat.not_lt.mpr h)]
  rfl

/-- Too many items are an error. -/
theorem checkSize_of_lt (h : m.limits.stackSize < m.size) :
  checkSize m = .error (.execution (.tooManyItems m.size)) m
  := by
  change (if _ then _ else _ : Step Unit) m = _
  rw [if_pos h]
  rfl

theorem need_of_le {n : Nat} (h : n ≤ m.stack.length) :
  need n m = .ok () m
  := by
  change (if _ then _ else _ : Step Unit) m = _
  rw [if_neg (Nat.not_lt.mpr h)]
  rfl

/-- Too few items are an error. -/
theorem need_of_lt {n : Nat} (h : m.stack.length < n) :
  need n m = .error (.execution (.tooFewOperands n)) m
  := by
  change (if _ then _ else _ : Step Unit) m = _
  rw [if_pos h]
  rfl

theorem pop_of_cons {item : Item} {stack : List Item} (h : m.stack = item :: stack) :
  pop m = .ok item { m with stack }
  := by
  rw [pop, h]

/-- Nothing can be taken from an empty stack. -/
theorem pop_of_nil (h : m.stack = []) :
  pop m = .error (.execution .emptyStack) m
  := by
  rw [pop, h]

/-- An item is taken even if it does not denote a number. -/
theorem popInt_of_cons {item : Item} {stack : List Item} (h : m.stack = item :: stack) :
  popInt m = ofExcept (item.toInt m.limits.numberLength) { m with stack }
  := bind_of_ok (pop_of_cons h) _

theorem popBytes_of_cons {item : Item} {stack : List Item} (h : m.stack = item :: stack) :
  popBytes m = .ok item.toBytes { m with stack }
  := by
  rw [popBytes, bind_of_ok (pop_of_cons h)]
  rfl

theorem popBool_of_cons {item : Item} {stack : List Item} (h : m.stack = item :: stack) :
  popBool m = .ok item.toBool { m with stack }
  := by
  rw [popBool, bind_of_ok (pop_of_cons h)]
  rfl

theorem popBool_of_nil (h : m.stack = []) :
  popBool m = .error (.execution .emptyStack) m
  := bind_of_error (pop_of_nil h) _

theorem popExtra_of_cons {item : Item} {stack : List Item} (h : m.stack = item :: stack) :
  popExtra m = .ok item { m with stack }
  := by
  rw [popExtra, h]

theorem popExtra_of_nil (h : m.stack = []) :
  popExtra m = .error (.execution .missingExtraItem) m
  := by
  rw [popExtra, h]

theorem fromAltStack_of_cons {item : Item} {rest : List Item} (h : m.altStack = item :: rest) :
  fromAltStack m = .ok () { m with stack := item :: m.stack, altStack := rest }
  := by
  rw [fromAltStack, h]

theorem fromAltStack_of_nil (h : m.altStack = []) :
  fromAltStack m = .error (.execution .emptyAltStack) m
  := by
  rw [fromAltStack, h]

/-- There is a context when both of its parts are there. -/
theorem context_eq {spending : Spending} {subScript : Script}
    (hspending : m.spending? = some spending) (hscript : m.subScript? = some subScript) :
  context m = .ok (spending, subScript) m
  := by
  obtain ⟨limits, stack, altStack, savedStack, stopped, spending?, subScript?, partialMultisig,
    matchCount⟩ := m
  cases hspending
  cases hscript
  rfl

/-- A step that leads to another machine may be left out in front of what follows it. -/
theorem bind_congr_left {x y : Step α} (h : x m = y m') (f : α → Step β) :
  (x >>= f) m = (y >>= f) m'
  := by
  change EStateM.bind x f m = EStateM.bind y f m'
  rw [EStateM.bind, EStateM.bind, h]

/-- A condition is refused, or it is taken from the stack. -/
theorem condition_cases (m : Machine) :
  (∃ e m', ∀ {β : Type} (f : Bool → Step β),
      (checkSize >>= fun _ => popBool >>= f) m = .error e m')
    ∨ ∃ condition m', m'.stopped = m.stopped ∧ m'.limits = m.limits ∧
      ∀ {β : Type} (f : Bool → Step β),
        (checkSize >>= fun _ => popBool >>= f) m = f condition m'
  := by
  rcases Nat.lt_or_ge m.limits.stackSize m.size with h | h
  · left
    exact ⟨_, _, fun f => bind_of_error (checkSize_of_lt h) _⟩
  · cases e : m.stack with
    | nil =>
      left
      refine ⟨.execution .emptyStack, m, fun f => ?_⟩
      rw [bind_of_ok (checkSize_of_le h), bind_of_error (popBool_of_nil e)]
    | cons item stack =>
      right
      refine ⟨item.toBool, { m with stack }, rfl, rfl, fun f => ?_⟩
      rw [bind_of_ok (checkSize_of_le h), bind_of_ok (popBool_of_cons e)]

theorem enter_of_le {depth : Nat} (h : depth ≤ m.limits.branchDepth) :
  enter depth m = .ok () m
  := by
  change (if _ then _ else _ : Step Unit) m = _
  rw [if_neg (Nat.not_lt.mpr h)]
  rfl

/-- Conditionals that are nested too deeply are an error. -/
theorem enter_of_lt {depth : Nat} (h : m.limits.branchDepth < depth) :
  enter depth m = .error (.execution .nestedTooDeep) m
  := by
  change (if _ then _ else _ : Step Unit) m = _
  rw [if_pos h]
  rfl

end Bitcoin.Step
