import Bitcoin.Proofs.Machine.Flat
import Bitcoin.Proofs.Machine.Rearrangement

/-!
# Executions that complete

An execution completes when it ends without an error and leaves a machine that has not stopped
(`Step.Completes`). A sequence completes exactly if each part does, from the machine that the part
before it has left; so what a completed execution has found on the stack, and what it has left
there, can be read off from its parts. This is done here for the opcodes of standard outputs.
-/

namespace Bitcoin

/-- A machine is valid when it has not stopped and a true item is on top. -/
theorem Machine.valid_iff {m : Machine} :
  m.valid = true ↔ m.stopped = false ∧ ∃ top rest, m.stack = top :: rest ∧ top.toBool = true
  := by
  rw [valid, Bool.and_eq_true, Bool.not_eq_true']
  apply and_congr_right
  intro _
  cases m.stack with
  | nil =>
    constructor
    · rintro ⟨⟩
    · rintro ⟨_, _, ⟨⟩, _⟩
  | cons top rest =>
    constructor
    · exact fun h => ⟨top, rest, rfl, h⟩
    · rintro ⟨_, _, ⟨⟩, h⟩
      exact h

namespace Step

variable {α β : Type} {m m' : Machine}

/-! ### Steps that succeed

What it takes that a sequence of steps succeeds, by its first step. -/

/-- Two steps in a row succeed when both do, the second one on what the first has left. -/
theorem bind_eq_ok_iff {x : Step α} {f : α → Step β} {b : β} :
  (x >>= f) m = .ok b m' ↔ ∃ a m₁, x m = .ok a m₁ ∧ f a m₁ = .ok b m'
  := by
  cases h : x m with
  | ok a m₁ =>
    rw [bind_of_ok h]
    constructor
    · exact fun hf => ⟨a, m₁, rfl, hf⟩
    · rintro ⟨_, _, ⟨⟩, hf⟩
      exact hf
  | error e m₁ =>
    rw [bind_of_error h]
    constructor
    · rintro ⟨⟩
    · rintro ⟨_, _, ⟨⟩, _⟩

variable {b : β}

/-- A step that changes nothing succeeds on a condition. -/
theorem guard_bind_eq_ok_iff {condition : Prop} {x : Step Unit} (hok : condition → x m = .ok () m)
    (herror : ¬condition → ∃ e, x m = .error e m) {f : Unit → Step β} :
  (x >>= f) m = .ok b m' ↔ condition ∧ f () m = .ok b m'
  := by
  by_cases h : condition
  · rw [bind_of_ok (hok h)]
    exact (and_iff_right h).symm
  · obtain ⟨e, hx⟩ := herror h
    rw [bind_of_error hx]
    constructor
    · rintro ⟨⟩
    · exact fun hf => absurd hf.1 h

/-- A check of the size lets a machine pass that does not have too many items. -/
theorem checkSize_bind_eq_ok_iff {f : Unit → Step β} :
  (checkSize >>= f) m = .ok b m' ↔ m.size ≤ m.limits.stackSize ∧ f () m = .ok b m'
  := guard_bind_eq_ok_iff checkSize_of_le fun h => ⟨_, checkSize_of_lt (Nat.lt_of_not_le h)⟩

/-- A demand for items lets a machine pass that has them. -/
theorem need_bind_eq_ok_iff {n : Nat} {f : Unit → Step β} :
  (need n >>= f) m = .ok b m' ↔ n ≤ m.stack.length ∧ f () m = .ok b m'
  := guard_bind_eq_ok_iff need_of_le fun h => ⟨_, need_of_lt (Nat.lt_of_not_le h)⟩

theorem enter_bind_eq_ok_iff {depth : Nat} {f : Unit → Step β} :
  (enter depth >>= f) m = .ok b m' ↔ depth ≤ m.limits.branchDepth ∧ f () m = .ok b m'
  := guard_bind_eq_ok_iff enter_of_le fun h => ⟨_, enter_of_lt (Nat.lt_of_not_le h)⟩

/-- A step that takes the top item succeeds if there is one. -/
theorem take_bind_eq_ok_iff {x : Step α} {value : Item → α}
    (hnil : m.stack = [] → ∃ e, x m = .error e m)
    (hcons : ∀ {item stack}, m.stack = item :: stack → x m = .ok (value item) { m with stack })
    {f : α → Step β} :
  (x >>= f) m = .ok b m'
    ↔ ∃ item stack, m.stack = item :: stack ∧ f (value item) { m with stack } = .ok b m'
  := by
  cases h : m.stack with
  | nil =>
    obtain ⟨e, hx⟩ := hnil h
    rw [bind_of_error hx]
    constructor
    · rintro ⟨⟩
    · rintro ⟨_, _, ⟨⟩, _⟩
  | cons item stack =>
    rw [bind_of_ok (hcons h)]
    constructor
    · exact fun hf => ⟨item, stack, rfl, hf⟩
    · rintro ⟨_, _, ⟨⟩, hf⟩
      exact hf

/-- Bytes are taken from the top, whatever item stands there. -/
theorem popBytes_bind_eq_ok_iff {f : Bytes → Step β} :
  (popBytes >>= f) m = .ok b m'
    ↔ ∃ item stack, m.stack = item :: stack ∧ f item.toBytes { m with stack } = .ok b m'
  := take_bind_eq_ok_iff (fun h => ⟨_, bind_of_error (pop_of_nil h) _⟩) popBytes_of_cons

theorem popExtra_bind_eq_ok_iff {f : Item → Step β} :
  (popExtra >>= f) m = .ok b m'
    ↔ ∃ item stack, m.stack = item :: stack ∧ f item { m with stack } = .ok b m'
  := take_bind_eq_ok_iff (fun h => ⟨_, popExtra_of_nil h⟩) popExtra_of_cons

theorem ofExcept_eq_ok_iff {x : Except Error α} {a : α} :
  ofExcept x m = .ok a m' ↔ x = .ok a ∧ m' = m
  := by
  cases x with
  | error e =>
    constructor
    · rintro ⟨⟩
    · rintro ⟨⟨⟩, _⟩
  | ok a' =>
    constructor
    · rintro ⟨⟩
      exact ⟨rfl, rfl⟩
    · rintro ⟨⟨⟩, rfl⟩
      rfl

theorem ofExcept_bind_eq_ok_iff {x : Except Error α} {f : α → Step β} :
  (ofExcept x >>= f) m = .ok b m' ↔ ∃ a, x = .ok a ∧ f a m = .ok b m'
  := by
  rw [bind_eq_ok_iff]
  simp only [ofExcept_eq_ok_iff, and_assoc, exists_and_left, exists_eq_left]

/-- What needs the context succeeds where both of its parts are there. -/
theorem context_bind_eq_ok_iff {f : Spending × Script → Step β} :
  (context >>= f) m = .ok b m'
    ↔ ∃ spending subScript, m.spending? = some spending ∧ m.subScript? = some subScript
      ∧ f (spending, subScript) m = .ok b m'
  := by
  constructor
  · intro h
    obtain ⟨⟨spending, subScript⟩, m₁, hcontext, hf⟩ := bind_eq_ok_iff.mp h
    obtain ⟨limits, stack, altStack, savedStack, stopped, spending?, subScript?, partialMultisig,
      matchCount⟩ := m
    cases spending? with
    | none => cases hcontext
    | some =>
      cases subScript? with
      | none => cases hcontext
      | some =>
        cases hcontext
        exact ⟨_, _, rfl, rfl, hf⟩
  · rintro ⟨spending, subScript, hspending, hscript, hf⟩
    rwa [bind_of_ok (context_eq hspending hscript)]

/-- A push always succeeds. -/
theorem push_eq_ok_iff {item : Item} :
  push item m = .ok () m' ↔ m' = { m with stack := item :: m.stack }
  := by
  constructor
  · rintro ⟨⟩
    rfl
  · rintro rfl
    rfl

/-! ### Opcodes that succeed -/

theorem dup_of_cons {item : Item} {stack : List Item} (h : m.stack = item :: stack) :
  execute .dup m = .ok () { m with stack := item :: item :: stack }
  := @rearrange_of_leaves m 1 _ _ StackOp.arranges_dup (fun _ => item) stack h

/-- The top item is copied if there is one. -/
theorem dup_eq_ok_iff :
  execute .dup m = .ok () m'
    ↔ ∃ item stack, m.stack = item :: stack ∧ m' = { m with stack := item :: item :: stack }
  := by
  cases h : m.stack with
  | nil =>
    have hlt : m.stack.length < 1 := by
      rw [h]
      exact Nat.one_pos
    have herror : execute .dup m = .error (.execution (.tooFewOperands 1)) m :=
      rearrange_of_lt hlt
    rw [herror]
    constructor
    · rintro ⟨⟩
    · rintro ⟨_, _, ⟨⟩, _⟩
  | cons item stack =>
    rw [dup_of_cons h]
    constructor
    · rintro ⟨⟩
      exact ⟨item, stack, rfl, rfl⟩
    · rintro ⟨_, _, ⟨⟩, rfl⟩
      rfl

/-- The top item gives way to its digest. -/
theorem digest_eq_ok_iff {n : Nat} {hash : Bytes → FixedBytes n} :
  digest hash m = .ok () m'
    ↔ ∃ item stack, m.stack = item :: stack
      ∧ m' = { m with stack := .bytes (hash item.toBytes).toList :: stack }
  := by
  rw [digest, popBytes_bind_eq_ok_iff]
  simp only [push_eq_ok_iff]

/-- Two items give way to whether their bytes are equal. -/
theorem equal_eq_ok_iff :
  equal m = .ok () m'
    ↔ ∃ b a stack, m.stack = b :: a :: stack
      ∧ m' = { m with stack := .truth (a.toBytes == b.toBytes) :: stack }
  := by
  simp only [equal, need_bind_eq_ok_iff, popBytes_bind_eq_ok_iff, push_eq_ok_iff]
  constructor
  · rintro ⟨_, b, _, hstack, a, stack, rfl, hm'⟩
    exact ⟨b, a, stack, hstack, hm'⟩
  · rintro ⟨b, a, stack, hstack, hm'⟩
    refine ⟨?_, b, _, hstack, a, stack, rfl, hm'⟩
    rw [hstack]
    apply Nat.le_add_left 2 _

/-- A key and a signature give way to whether the signature is good, for the script without it.
-/
theorem checkSig_eq_ok_iff :
  checkSig m = .ok () m'
    ↔ ∃ key signature stack spending subScript stripped verified,
      m.stack = key :: signature :: stack
      ∧ m.spending? = some spending ∧ m.subScript? = some subScript
      ∧ subScript.removePush signature.toBytes = .ok stripped
      ∧ spending.checkSignature stripped signature.toBytes key.toBytes = .ok verified
      ∧ m' = { m with stack := .truth verified :: stack }
  := by
  simp only [checkSig, need_bind_eq_ok_iff, context_bind_eq_ok_iff, popBytes_bind_eq_ok_iff,
    ofExcept_bind_eq_ok_iff, push_eq_ok_iff]
  constructor
  · rintro ⟨_, spending, subScript, hspending, hscript, key, _, hstack, signature, stack, rfl,
      stripped, hstripped, verified, hverified, hm'⟩
    exact ⟨key, signature, stack, spending, subScript, stripped, verified, hstack, hspending,
      hscript, hstripped, hverified, hm'⟩
  · rintro ⟨key, signature, stack, spending, subScript, stripped, verified, hstack, hspending,
      hscript, hstripped, hverified, hm'⟩
    refine ⟨?_, spending, subScript, hspending, hscript, key, _, hstack, signature, stack, rfl,
      stripped, hstripped, verified, hverified, hm'⟩
    rw [hstack]
    apply Nat.le_add_left 2 _

/-- The last opcode needs room, and its result is that of the script. -/
theorem run_flat_singleton_eq_ok_iff {op : Opcode} {depth : Nat} :
  (Program.flat [.op op]).run depth m = .ok () m'
    ↔ m.size ≤ m.limits.stackSize ∧ execute op m = .ok () m'
  := by
  have hdone : ∀ m₁ : Machine, unlessStopped (Program.done.run depth) m₁ = .ok () m₁ := by
    intro m₁
    rw [unlessStopped]
    split <;> rfl
  rw [Program.flat, Program.run, bind_eq_ok_iff]
  simp only [element, checkSize_bind_eq_ok_iff]
  constructor
  · rintro ⟨_, m₁, ⟨hsize, hop⟩, hrest⟩
    cases (hdone m₁).symm.trans hrest
    exact ⟨hsize, hop⟩
  · rintro ⟨hsize, hop⟩
    exact ⟨(), m', ⟨hsize, hop⟩, hdone m'⟩

/-! ### Completion -/

/-- The execution ends without an error, and leaves a machine that has not stopped. -/
def Completes (x : Step Unit) (m m' : Machine) : Prop :=
  x m = .ok () m' ∧ m'.stopped = false

/-- Two steps in a row are completed when both are. -/
theorem completes_bind_iff {x y : Step Unit} :
  Completes (x >>= fun _ => unlessStopped y) m m' ↔ ∃ m₁, Completes x m m₁ ∧ Completes y m₁ m'
  := by
  constructor
  · rintro ⟨h, hm'⟩
    obtain ⟨_, m₁, hx, hy⟩ := bind_eq_ok_iff.mp h
    cases hm₁ : m₁.stopped with
    | true =>
      -- A stopped machine is left as it is, and so is not left running.
      rw [unlessStopped_of_stopped y hm₁] at hy
      cases hy
      rw [hm₁] at hm'
      cases hm'
    | false =>
      rw [unlessStopped_of_running y hm₁] at hy
      exact ⟨m₁, ⟨hx, hm₁⟩, hy, hm'⟩
  · rintro ⟨m₁, ⟨hx, hm₁⟩, hy, hm'⟩
    rw [Completes, bind_of_ok hx, unlessStopped_of_running y hm₁]
    exact ⟨hy, hm'⟩

/-- An element is completed where there are not too many items. -/
theorem completes_element_iff {body : Step Unit} :
  Completes (element body) m m' ↔ m.size ≤ m.limits.stackSize ∧ Completes body m m'
  := by
  rw [Completes, element, checkSize_bind_eq_ok_iff, and_assoc, Completes]

theorem completes_flat_nil_iff {depth : Nat} :
  Completes ((Program.flat []).run depth) m m' ↔ m.stopped = false ∧ m' = m
  := by
  constructor
  · rintro ⟨⟨⟩, hm⟩
    exact ⟨hm, rfl⟩
  · rintro ⟨hm, rfl⟩
    exact ⟨rfl, hm⟩

/-- A program that begins with an opcode is completed by it and then by the others. -/
theorem completes_flat_op_iff {op : Opcode} {rest : List Token} {depth : Nat} :
  Completes ((Program.flat (.op op :: rest)).run depth) m m'
    ↔ m.size ≤ m.limits.stackSize
      ∧ ∃ m₁, Completes (execute op) m m₁ ∧ Completes ((Program.flat rest).run depth) m₁ m'
  := by
  rw [Program.flat, Program.run, completes_bind_iff]
  simp only [completes_element_iff, and_assoc, exists_and_left]

theorem completes_push_iff {item : Item} :
  Completes (push item) m m' ↔ m.stopped = false ∧ m' = { m with stack := item :: m.stack }
  := by
  constructor
  · rintro ⟨⟨⟩, hm⟩
    exact ⟨hm, rfl⟩
  · rintro ⟨hm, rfl⟩
    exact ⟨rfl, hm⟩

/-- A program that begins with a push is completed if nothing has stopped before. -/
theorem completes_flat_push_iff {p : Push} {rest : List Token} {depth : Nat} :
  Completes ((Program.flat (.push p :: rest)).run depth) m m'
    ↔ m.size ≤ m.limits.stackSize ∧ m.stopped = false
      ∧ Completes ((Program.flat rest).run depth) { m with stack := .bytes p.data :: m.stack } m'
  := by
  rw [Program.flat, Program.run, completes_bind_iff]
  simp only [completes_element_iff, completes_push_iff]
  constructor
  · rintro ⟨_, ⟨hsize, hm, rfl⟩, h⟩
    exact ⟨hsize, hm, h⟩
  · rintro ⟨hsize, hm, h⟩
    exact ⟨_, ⟨hsize, hm, rfl⟩, h⟩

/-- A machine that has stopped does not complete anything. -/
theorem completes_unlessStopped_iff {x : Step Unit} :
  Completes (unlessStopped x) m m' ↔ m.stopped = false ∧ Completes x m m'
  := by
  cases hm : m.stopped with
  | true =>
    constructor
    · rintro ⟨hx, hm'⟩
      rw [unlessStopped_of_stopped x hm] at hx
      cases hx
      rw [hm] at hm'
      cases hm'
    · rintro ⟨⟨⟩, _⟩
  | false =>
    rw [Completes, unlessStopped_of_running x hm, ← Completes]
    apply (and_iff_right rfl).symm

/-- A script is completed when its program is, outside of all conditionals. -/
theorem completes_runScript_iff {script : Script} {program : Program}
    (h : script.program = .ok program) :
  Completes (runScript script) m m' ↔ m.stopped = false ∧ Completes (program.run 1) m m'
  := by
  rw [runScript_eq_unlessStopped h, completes_unlessStopped_iff]

/-- Only items with the same bytes leave the machine running. -/
theorem completes_equalVerify_iff :
  Completes (execute .equalVerify) m m'
    ↔ m.stopped = false ∧ ∃ b a stack, m.stack = b :: a :: stack ∧ a.toBytes = b.toBytes
      ∧ m' = { m with stack }
  := by
  constructor
  · rintro ⟨h, hm'⟩
    obtain ⟨_, m₁, hequal, hverify⟩ := bind_eq_ok_iff.mp h
    obtain ⟨b, a, stack, hstack, rfl⟩ := equal_eq_ok_iff.mp hequal
    rw [verify, bind_of_ok (popBool_of_cons rfl)] at hverify
    by_cases hsame : a.toBytes = b.toBytes
    · rw [hsame, Item.toBool, beq_self_eq_true] at hverify
      cases hverify
      exact ⟨hm', b, a, stack, hstack, hsame, rfl⟩
    · rw [Item.toBool, beq_false_of_ne hsame] at hverify
      cases hverify
      cases hm'
  · rintro ⟨hm, b, a, stack, hstack, hsame, rfl⟩
    have hequal := equal_eq_ok_iff.mpr ⟨b, a, stack, hstack, rfl⟩
    rw [hsame, beq_self_eq_true] at hequal
    exact ⟨bind_eq_ok_iff.mpr ⟨(), _, hequal, rfl⟩, hm⟩

end Step

end Bitcoin
