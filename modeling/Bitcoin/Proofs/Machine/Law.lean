import Bitcoin.Proofs.Machine.Frames
import Bitcoin.Proofs.Machine.Rearrangement
import Bitcoin.Proofs.Machine.Structure

/-!
# Laws of execution

A law (`Step.Law`) allows some limits, items, operands and errors. A step obeys it (`Step.Obeys`)
if, on a machine that is allowed, it leaves an allowed machine with the same context, puts at most
so many items on the stacks and ends with an allowed error, if with any.

Every law is obeyed by all opcodes, up to what the law has to say about those that give scripts
their structure and about the depth of the stack (`Step.Obeys.execute`), and so by programs and
scripts (`Step.Obeys.run`, `Step.Obeys.runScript`). To show what holds throughout an execution it is
enough to show that it makes a law.
-/

namespace Bitcoin

/-- The parts of a machine that no opcode changes. -/
structure Machine.SameContext (m m' : Machine) : Prop where
  limits : m'.limits = m.limits
  savedStack : m'.savedStack = m.savedStack
  spending? : m'.spending? = m.spending?
  subScript? : m'.subScript? = m.subScript?
  partialMultisig : m'.partialMultisig = m.partialMultisig

theorem Machine.SameContext.refl (m : Machine) :
  SameContext m m
  := ⟨rfl, rfl, rfl, rfl, rfl⟩

/-- A context that was kept twice was kept. -/
theorem Machine.SameContext.trans {m₁ m₂ m₃ : Machine} (h : SameContext m₁ m₂)
    (h' : SameContext m₂ m₃) :
  SameContext m₁ m₃
  where
  limits := h'.limits.trans h.limits
  savedStack := h'.savedStack.trans h.savedStack
  spending? := h'.spending?.trans h.spending?
  subScript? := h'.subScript?.trans h.subScript?
  partialMultisig := h'.partialMultisig.trans h.partialMultisig

namespace Step

/-- The machine at the end of an execution, which may be an error. -/
def final {α : Type} (x : Step α) (m : Machine) : Machine :=
  match x m with
  | .ok _ m' => m'
  | .error _ m' => m'

/-- An execution that succeeds leaves the machine with which it does. -/
theorem final_of_ok {α : Type} {x : Step α} {m m' : Machine} {a : α} (h : x m = .ok a m') :
  x.final m = m'
  := by
  rw [final, h]

/-- An execution that fails leaves the machine with which it does. -/
theorem final_of_error {α : Type} {x : Step α} {m m' : Machine} {e : Error}
    (h : x m = .error e m') :
  x.final m = m'
  := by
  rw [final, h]

/-- What executions may deal with. Whatever opcodes put on the stacks has to be allowed if their
operands are, and only opcodes of the structure of scripts may end with errors that are not. -/
structure Law where
  limits : Limits → Prop
  item : Item → Prop
  operand : Int → Prop
  error : Error → Prop
  operand_of_toInt : ∀ {l : Limits} {x : Item} {n : Int}, limits l → item x →
    x.toInt l.numberLength = .ok n → operand n
  item_truth : ∀ b : Bool, item (.truth b)
  /-- Digests are not longer. -/
  item_bytes : ∀ {data : Bytes}, data.length ≤ 32 → item (.bytes data)
  /-- Some opcodes stand for a number up to sixteen. -/
  item_small : ∀ {n : Int}, n.natAbs ≤ 16 → item (.number n)
  item_length : ∀ {x : Item}, item x → item (.number (x.toBytes.length : Int))
  item_depth : ∀ {l : Limits} {n : Nat}, limits l → n ≤ l.stackSize → item (.number (n : Int))
  /-- The result of arithmetic exceeds its operands together by one at most. -/
  item_result : ∀ {a b n : Int}, operand a → operand b → n.natAbs ≤ a.natAbs + b.natAbs + 1 →
    item (.number n)
  error_of_isStructural : ∀ {e : Error}, e.isStructural = false → error e

namespace Law

/-- Whether a machine has allowed limits and items. -/
structure Allows (law : Law) (m : Machine) : Prop where
  limits : law.limits m.limits
  stack : ∀ x ∈ m.stack, law.item x
  altStack : ∀ x ∈ m.altStack, law.item x

/-- Whether a machine may have become another, on whose stacks there are at most `n` items more. -/
structure Change (law : Law) (n : Nat) (m m' : Machine) : Prop where
  context : m.SameContext m'
  allows : law.Allows m'
  size_le : m'.size ≤ m.size + n

variable {law : Law} {n k : Nat} {m m₁ m' : Machine}

theorem Change.refl (hm : law.Allows m) :
  law.Change n m m
  := ⟨.refl m, hm, Nat.le_add_right _ _⟩

/-- Room for some items is room for fewer. -/
theorem Change.mono (h : law.Change n m m') (hn : n ≤ k) :
  law.Change k m m'
  := ⟨h.context, h.allows, Nat.le_trans h.size_le (Nat.add_le_add_left hn _)⟩

/-- The items of two changes add up. -/
theorem Change.trans (h : law.Change n m m₁) (h' : law.Change k m₁ m') :
  law.Change (n + k) m m'
  where
  context := h.context.trans h'.context
  allows := h'.allows
  size_le := by
    have hfirst := h.size_le
    have hsecond := h'.size_le
    omega

/-- A stack of allowed items may be put in place of another one. -/
theorem Allows.withStack (hm : law.Allows m) {stack : List Item} (hstack : ∀ x ∈ stack, law.item x)
    (hlength : stack.length ≤ m.stack.length + n) :
  law.Change n m { m with stack }
  where
  context := ⟨rfl, rfl, rfl, rfl, rfl⟩
  allows := ⟨hm.limits, hstack, hm.altStack⟩
  size_le := by
    simp only [Machine.size]
    omega

/-- The top item may be taken. -/
theorem Allows.tail (hm : law.Allows m) {x : Item} {stack : List Item} (h : m.stack = x :: stack) :
  law.item x ∧ law.Change 0 m { m with stack }
  := by
  have hitems := hm.stack
  rw [h] at hitems
  obtain ⟨hx, hrest⟩ := List.forall_mem_cons.mp hitems
  use hx
  apply hm.withStack hrest
  rw [h]
  apply Nat.le_succ

/-- Whether the data that a program pushes are allowed, and so are the errors of those of its
opcodes that stand for a part of the structure of scripts. -/
structure Admits (law : Law) (p : Program) : Prop where
  push : ∀ push : Push, .push push ∈ p.tokens → law.item (.bytes push.data)
  op : ∀ o ∈ p.opcodes, o.isStructural = true → law.error (.execution (.structuralOpcode o))

namespace Admits

variable {c : Conditional} {body alternative rest : Program}

/-- A program is admitted with the data of its first push and with the rest. -/
theorem of_push {p : Push} (h : law.Admits (.push p rest)) :
  law.item (.bytes p.data) ∧ law.Admits rest
  where
  left := h.push p List.mem_cons_self
  right := ⟨fun push hpush => h.push push (List.mem_cons_of_mem _ hpush), h.op⟩

/-- A program is admitted with the error of its first opcode and with the rest. -/
theorem of_op {o : Opcode} (h : law.Admits (.op o rest)) :
  (o.isStructural = true → law.error (.execution (.structuralOpcode o))) ∧ law.Admits rest
  where
  left := h.op o List.mem_cons_self
  right :=
    { push := fun push hpush => h.push push (List.mem_cons_of_mem _ hpush)
      op := fun o' ho' => h.op o' (List.mem_cons_of_mem _ ho') }

/-- Both parts of a conditional and what follows it are admitted with it. -/
theorem of_branch (h : law.Admits (.branch c body rest)) :
  law.Admits body ∧ law.Admits rest
  where
  left :=
    { push := fun push hpush => h.push push (by simp [Program.tokens, hpush])
      op := fun o ho => h.op o (List.mem_append_left _ ho) }
  right :=
    { push := fun push hpush => h.push push (by simp [Program.tokens, hpush])
      op := fun o ho => h.op o (List.mem_append_right _ ho) }

theorem of_branchElse (h : law.Admits (.branchElse c body alternative rest)) :
  law.Admits body ∧ law.Admits alternative ∧ law.Admits rest
  := by
  refine ⟨?body, ?alternative, ?rest⟩ <;> constructor
  case body.push | alternative.push | rest.push =>
    exact fun push hpush => h.push push (by simp [Program.tokens, hpush])
  case body.op | alternative.op | rest.op =>
    exact fun o ho => h.op o (by simp [Program.opcodes, ho])

end Admits

end Law

/-- Whether a step, on a machine, obeys a law and has a result of a sort. It puts at most `n` items
on the stacks beyond those that it takes. -/
structure ObeysAt {α : Type} (law : Law) (n : Nat) (good : α → Prop) (x : Step α) (m : Machine) :
    Prop where
  change : law.Change n m (x.final m)
  result : ∀ {a m'}, x m = .ok a m' → good a
  error : ∀ {e m'}, x m = .error e m' → law.error e

/-- Whether a step does so on every machine that is allowed. -/
def Obeys {α : Type} (law : Law) (n : Nat) (good : α → Prop) (x : Step α) : Prop :=
  ∀ m : Machine, law.Allows m → ObeysAt law n good x m

/-- A step whose result may be any. -/
abbrev Obeys.Any {α : Type} (law : Law) (n : Nat) (x : Step α) : Prop :=
  Obeys law n (fun _ => True) x

namespace Obeys

variable {α β : Type} {law : Law} {n k : Nat} {good : α → Prop} {fine : β → Prop}

/-- A step that succeeds is to be looked at for the machine and the result. -/
theorem of_ok {x : Step α} {m m' : Machine} {a : α} (hx : x m = .ok a m')
    (hm' : law.Change n m m') (ha : good a) :
  ObeysAt law n good x m
  where
  change := by
    rw [final_of_ok hx]
    apply hm'
  result := by
    intro b m'' h
    cases hx.symm.trans h
    apply ha
  error := by
    intro e m'' h
    cases hx.symm.trans h

/-- A step that fails is to be looked at for the machine and the error. -/
theorem of_error {x : Step α} {m m' : Machine} {e : Error} (hx : x m = .error e m')
    (hm' : law.Change n m m') (he : law.error e) :
  ObeysAt law n good x m
  where
  change := by
    rw [final_of_error hx]
    apply hm'
  result := by
    intro a m'' h
    cases hx.symm.trans h
  error := by
    intro e' m'' h
    cases hx.symm.trans h
    apply he

/-- A step that puts few items on the stacks may put more there. -/
theorem mono {x : Step α} (hx : Obeys law n good x) (h : n ≤ k) :
  Obeys law k good x
  := fun m hm =>
    { change := (hx m hm).change.mono h
      result := (hx m hm).result
      error := (hx m hm).error }

theorem pure {a : α} (ha : good a) :
  Obeys law n good (Pure.pure a : Step α)
  := fun _ hm => of_ok rfl (.refl hm) ha

/-- The items that two steps put on the stacks add up. -/
theorem bind_add {x : Step α} {f : α → Step β} (hx : Obeys law n good x)
    (hf : ∀ a, good a → Obeys law k fine (f a)) :
  Obeys law (n + k) fine (x >>= f)
  := by
  intro m hm
  have hfirst := hx m hm
  have hchange := hfirst.change
  cases e : x m with
  | error err m₁ =>
    rw [final_of_error e] at hchange
    exact of_error (bind_of_error e f) (hchange.mono (Nat.le_add_right n k)) (hfirst.error e)
  | ok a m₁ =>
    rw [final_of_ok e] at hchange
    have hsecond := hf a (hfirst.result e) m₁ hchange.allows
    constructor
    · rw [final, bind_of_ok e]
      apply hchange.trans hsecond.change
    · intro b m' h
      rw [bind_of_ok e] at h
      apply hsecond.result h
    · intro err m' h
      rw [bind_of_ok e] at h
      apply hsecond.error h

/-- What a sequence puts on the stacks may be put there by its last step. -/
theorem bind {x : Step α} {f : α → Step β} (hx : Obeys law 0 good x)
    (hf : ∀ a, good a → Obeys law n fine (f a)) :
  Obeys law n fine (x >>= f)
  := by
  have h := hx.bind_add hf
  rwa [Nat.zero_add] at h

/-- Or it may be put there by its first step. -/
theorem bind_left {x : Step α} {f : α → Step β} (hx : Obeys law n good x)
    (hf : ∀ a, good a → Obeys law 0 fine (f a)) :
  Obeys law n fine (x >>= f)
  := hx.bind_add hf

theorem ite {c : Prop} [Decidable c] {x y : Step α} (hx : Obeys law n good x)
    (hy : Obeys law n good y) :
  Obeys law n good (if c then x else y)
  := by
  split
  · apply hx
  · apply hy

/-- A step may look at the machine before it does something that obeys. -/
theorem get_bind {f : Machine → Step β} (hf : ∀ m, law.Allows m → ObeysAt law n fine (f m) m) :
  Obeys law n fine (get >>= f)
  := fun m hm => ⟨(hf m hm).change, (hf m hm).result, (hf m hm).error⟩

/-- A change that obeys is made. -/
theorem modify {f : Machine → Machine} (hf : ∀ m, law.Allows m → law.Change n m (f m)) :
  Any law n (modify f)
  := fun m hm => of_ok rfl (hf m hm) trivial

/-- A failure obeys if its error is allowed. -/
theorem fail_of_error {fault : ExecutionFault} (h : law.error (.execution fault)) :
  Obeys law n good (Step.fail fault)
  := fun _ hm => of_error rfl (.refl hm) h

/-- A failure that has nothing to do with the structure of scripts obeys every law. -/
theorem fail {fault : ExecutionFault} (h : (Error.execution fault).isStructural = false) :
  Obeys law n good (fail fault)
  := fail_of_error (law.error_of_isStructural h)

/-- A result from outside obeys if it is good, and if its errors have nothing to do with the
structure of scripts. -/
theorem ofExcept {x : Except Error α} (hok : ∀ a, x = .ok a → good a)
    (herror : ∀ e, x = .error e → e.isStructural = false) :
  Obeys law n good (ofExcept x)
  := by
  cases x with
  | ok a => apply pure (hok a rfl)
  | error e =>
    have he := law.error_of_isStructural (herror e rfl)
    exact fun _ hm => of_error rfl (.refl hm) he

theorem ofExcept_any {x : Except Error α}
    (herror : ∀ e, x = .error e → e.isStructural = false) :
  Any law n (Step.ofExcept x)
  := ofExcept (fun _ _ => trivial) herror

theorem stop :
  Any law n stop
  := modify fun _ hm => ⟨⟨rfl, rfl, rfl, rfl, rfl⟩, ⟨hm.limits, hm.stack, hm.altStack⟩,
    Nat.le_add_right _ _⟩

/-- A push puts one item there. -/
theorem push {x : Item} (hx : law.item x) :
  Any law 1 (push x)
  := modify fun m hm =>
    hm.withStack (List.forall_mem_cons.mpr ⟨hx, hm.stack⟩) (Nat.le_refl (m.stack.length + 1))

/-- The item on top is taken, or there is none. -/
theorem takeTop {x : Step Item} {fault : ExecutionFault}
    (hfault : (Error.execution fault).isStructural = false)
    (hx : ∀ m : Machine, x m = match m.stack with
      | [] => .error (.execution fault) m
      | item :: stack => .ok item { m with stack }) :
  Obeys law 0 law.item x
  := by
  intro m hm
  have hm' := hx m
  cases hstack : m.stack with
  | nil =>
    rw [hstack] at hm'
    exact of_error hm' (.refl hm) (law.error_of_isStructural hfault)
  | cons item stack =>
    rw [hstack] at hm'
    obtain ⟨hitem, hrest⟩ := hm.tail hstack
    exact of_ok hm' hrest hitem

/-- What is taken from the stack is an allowed item. -/
theorem pop :
  Obeys law 0 law.item pop
  := takeTop rfl fun _ => rfl

theorem popBytes :
  Any law 0 popBytes
  := pop.bind fun _ _ => pure trivial

theorem popBool :
  Any law 0 popBool
  := pop.bind fun _ _ => pure trivial

/-- The number of an allowed item is an allowed operand. -/
theorem popInt :
  Obeys law 0 law.operand popInt
  := by
  apply get_bind
  intro m hm
  refine pop.bind (fun x hx => ofExcept (fun n hn => ?_) fun _ => ?_) m hm
  · exact law.operand_of_toInt hm.limits hx hn
  · exact Item.isStructural_eq_false_of_toInt

theorem need (count : Nat) :
  Any law 0 (need count)
  := get_bind fun m => (ite (fail rfl) (pure trivial)) m

theorem checkSize :
  Any law 0 checkSize
  := get_bind fun m => (ite (fail rfl) (pure trivial)) m

theorem context :
  Any law 0 context
  := by
  apply get_bind
  intro m
  cases m.spending? with
  | none => exact fail rfl m
  | some spending =>
    cases m.subScript? with
    | none => exact fail rfl m
    | some subScript => exact pure trivial m

theorem verify :
  Any law 0 verify
  := popBool.bind fun _ _ => ite stop (pure trivial)

/-! ### Opcodes that move items -/

/-- No rearrangement leaves more than three items more, whatever its shape. -/
theorem rearrange {needed : Nat} {op : StackOp needed} (hop : op.Shape) :
  Any law 3 (rearrange needed op)
  := by
  intro m hm
  rcases Nat.lt_or_ge m.stack.length needed with hlt | hle
  · exact of_error (rearrange_of_lt hlt) (.refl hm) (law.error_of_isStructural rfl)
  · obtain ⟨left, hleaves, hleft⟩ := hop.exists_leaves
    obtain ⟨taken, rest, hstack⟩ := exists_taken hle
    obtain ⟨hlength, hmem⟩ := hleft taken
    have hitems : ∀ x ∈ (left taken).reverse ++ rest, law.item x := by
      rw [List.forall_mem_append]
      constructor
      · intro x hx
        obtain ⟨i, hi⟩ := hmem x (List.mem_reverse.mp hx)
        have htaken : law.item (taken i) := by
          apply hm.stack
          rw [hstack]
          simp
        rcases hi with rfl | rfl
        · apply htaken
        · apply law.item_length htaken
      · exact fun x hx => hm.stack x (hstack ▸ List.mem_append_right _ hx)
    refine of_ok (rearrange_of_leaves hleaves hstack) (hm.withStack hitems ?_) trivial
    rw [hstack]
    simp only [List.length_append, List.length_reverse, List.length_ofFn]
    omega

theorem drop :
  Any law 0 drop
  := pop.bind fun _ _ => pure trivial

theorem toAltStack :
  Any law 1 toAltStack
  := by
  apply pop.bind
  intro x hx
  apply modify
  intro m hm
  exact ⟨⟨rfl, rfl, rfl, rfl, rfl⟩,
    ⟨hm.limits, hm.stack, List.forall_mem_cons.mpr ⟨hx, hm.altStack⟩⟩, Nat.le_refl (m.size + 1)⟩

theorem fromAltStack :
  Any law 0 fromAltStack
  := by
  intro m hm
  cases hstack : m.altStack with
  | nil =>
    exact of_error (fromAltStack_of_nil hstack) (.refl hm) (law.error_of_isStructural rfl)
  | cons x rest =>
    have hitems := hm.altStack
    rw [hstack] at hitems
    obtain ⟨hx, hrest⟩ := List.forall_mem_cons.mp hitems
    refine of_ok (fromAltStack_of_cons hstack) ?_ trivial
    constructor
    · exact ⟨rfl, rfl, rfl, rfl, rfl⟩
    · exact ⟨hm.limits, List.forall_mem_cons.mpr ⟨hx, hm.stack⟩, hrest⟩
    · simp only [Machine.size, hstack, List.length_cons]
      omega

theorem depth (h : ∀ count : Nat, law.item (.number (count : Int))) :
  Any law 1 depth
  := get_bind fun m => push (h m.stack.length) m

/-- Bringing an item up leaves at most one item more, in place of the count. -/
theorem bringCounted {op : Opcode} {bring : BringUp} {left : Item → List Item → List Item}
    (hbring : bring.Leaves left) (hleft : ∀ x above, left x above ⊆ x :: above)
    (hlength : ∀ x above, (left x above).length ≤ above.length + 2) :
  Any law 1 (bringCounted op bring)
  := by
  apply (need 2).bind
  intro _ _
  apply popInt.bind
  intro n _ m hm
  rcases exists_above m.stack n with h | ⟨above, x, rest, hstack, rfl⟩
  · exact of_error (bringUp_of_outside h) (.refl hm) (law.error_of_isStructural rfl)
  · have hitems : ∀ y ∈ (left x above).reverse ++ rest, law.item y := by
      intro y hy
      apply hm.stack
      rw [hstack]
      simp only [List.mem_append, List.mem_reverse, List.mem_cons] at hy ⊢
      rcases hy with hy | hy
      · rcases List.mem_cons.mp (hleft x above hy) with h | h
        · exact .inr (.inl h)
        · exact .inl h
      · exact .inr (.inr hy)
    refine of_ok (bringUp_of_above hbring hstack) (hm.withStack hitems ?_) trivial
    have hle := hlength x above
    rw [hstack]
    simp only [List.length_append, List.length_reverse, List.length_cons]
    omega

theorem pick :
  Any law 1 pick
  := bringCounted BringUp.leaves_copy (by simp) (by simp)

theorem roll :
  Any law 1 roll
  := bringCounted BringUp.leaves_move (by simp) (by simp)

/-! ### Opcodes that compute -/

/-- What is computed from an allowed operand takes its place, if it is allowed. -/
theorem unary {f : Int → Item} (h : ∀ a, law.operand a → law.item (f a)) :
  Any law 1 (unary f)
  := popInt.bind fun a ha => push (h a ha)

theorem unary_truth {f : Int → Bool} :
  Any law 1 (Step.unary fun a => .truth (f a))
  := unary fun _ _ => law.item_truth _

/-- A number with hardly twice the magnitude of its operand is allowed. -/
theorem unary_number {f : Int → Int} (h : ∀ a, (f a).natAbs ≤ a.natAbs + a.natAbs + 1) :
  Any law 1 (Step.unary fun a => .number (f a))
  := unary fun a ha => law.item_result ha ha (h a)

theorem binary {f : Int → Int → Item}
    (h : ∀ a b, law.operand a → law.operand b → law.item (f a b)) :
  Any law 1 (binary f)
  := (need 2).bind fun _ _ => popInt.bind fun b hb => popInt.bind fun a ha => push (h a b ha hb)

theorem binary_truth {f : Int → Int → Bool} :
  Any law 1 (Step.binary fun a b => .truth (f a b))
  := binary fun _ _ _ _ => law.item_truth _

/-- A number whose magnitude is hardly more than those of its operands together is allowed. -/
theorem binary_number {f : Int → Int → Int} (h : ∀ a b, (f a b).natAbs ≤ a.natAbs + b.natAbs + 1) :
  Any law 1 (Step.binary fun a b => .number (f a b))
  := binary fun a b ha hb => law.item_result ha hb (h a b)

theorem within :
  Any law 1 within
  := (need 3).bind fun _ _ => popInt.bind fun _ _ => popInt.bind fun _ _ => popInt.bind fun _ _ =>
    push (law.item_truth _)

theorem equal :
  Any law 1 equal
  := (need 2).bind fun _ _ => popBytes.bind fun _ _ => popBytes.bind fun _ _ =>
    push (law.item_truth _)

/-- A digest is short enough to be allowed. -/
theorem digest {length : Nat} (hash : Bytes → FixedBytes length) (h : length ≤ 32) :
  Any law 1 (digest hash)
  := popBytes.bind fun data _ => push (law.item_bytes ((hash data).length_eq.trans_le h))

/-! ### Opcodes that look at the transaction -/

theorem checkSig :
  Any law 1 checkSig
  := by
  apply (need 2).bind
  intro _ _
  apply context.bind
  rintro ⟨spending, subScript⟩ _
  apply popBytes.bind
  intro key _
  apply popBytes.bind
  intro signature _
  apply (ofExcept_any fun _ h => (Script.formal_of_removePush h).isStructural_eq_false).bind
  intro stripped _
  apply (ofExcept_any fun _ => Spending.isStructural_eq_false_of_checkSignature).bind
  intro verified _
  apply push (law.item_truth _)

/-- Items that are taken at once leave fewer. -/
theorem takeMany {m : Machine} (hm : law.Allows m) (count : Nat) (a : α) :
  ObeysAt law 0 (fun _ => True) (do
    set { m with stack := m.stack.drop count }
    return a) m
  := by
  have e : (do
      set { m with stack := m.stack.drop count }
      return a : Step α) m = .ok a { m with stack := m.stack.drop count } := rfl
  have hlength : (m.stack.drop count).length ≤ m.stack.length := by
    rw [List.length_drop]
    apply Nat.sub_le
  exact of_ok e (hm.withStack (fun x hx => hm.stack x (List.mem_of_mem_drop hx)) hlength) trivial

theorem popMany (count : Nat) :
  Any law 0 (popMany count)
  := (need count).bind fun _ _ => get_bind fun _ hm => takeMany hm _ _

theorem popNonempty (count : Nat) :
  Any law 0 (popNonempty count)
  := get_bind fun _ hm => takeMany hm _ _

theorem popExtra :
  Obeys law 0 law.item popExtra
  := takeTop rfl fun _ => rfl

theorem popKeys :
  Any law 0 popKeys
  := popInt.bind fun _ _ => ite (fail rfl) (popMany _)

theorem popRequired (keys : Nat) :
  Any law 0 (popRequired keys)
  := popInt.bind fun _ _ => ite (fail rfl) (pure trivial)

theorem popSignatures (required : Nat) :
  Any law 0 (popSignatures required)
  := get_bind fun m => (ite (popNonempty _) (popMany _)) m

/-- A verdict takes the place of all keys and signatures. -/
theorem checkMultisig :
  Any law 1 checkMultisig
  := by
  apply context.bind
  rintro ⟨spending, subScript⟩ _
  apply popKeys.bind
  intro keys _
  apply (popRequired _).bind
  intro required _
  apply (popSignatures _).bind
  intro signatures _
  apply popExtra.bind
  intro extra _
  apply (ofExcept_any fun _ h => (Script.formal_of_removePushes h).isStructural_eq_false).bind
  intro stripped _
  apply (ofExcept_any fun _ => Spending.isStructural_eq_false_of_countMatches).bind
  intro count _
  apply bind
  · exact modify fun m hm => ⟨⟨rfl, rfl, rfl, rfl, rfl⟩, ⟨hm.limits, hm.stack, hm.altStack⟩,
      Nat.le_refl m.size⟩
  · exact fun _ _ => push (law.item_truth _)

theorem checkLockTime :
  Any law 0 checkLockTime
  := by
  apply context.bind
  rintro ⟨spending, _⟩ _
  apply (need 1).bind
  intro _ _
  apply get_bind
  exact fun m => ((ofExcept_any fun _ => Item.isStructural_eq_false_of_toInt).bind fun _ _ =>
    ite stop (pure trivial)) m

/-! ### Every opcode -/

/-- An opcode obeys every law that allows the error of those that give scripts their structure and,
for the depth of the stack, any number. -/
theorem execute {o : Opcode}
    (hstructure : o.isStructural = true → law.error (.execution (.structuralOpcode o)))
    (hdepth : o = .depth → ∀ count : Nat, law.item (.number (count : Int))) :
  Any law 3 (execute o)
  := by
  cases ho : o.isStructural with
  | true =>
    rw [execute_of_isStructural ho]
    exact fail_of_error (hstructure ho)
  | false =>
    cases o <;> first
      | cases ho; done
      | dsimp only [Step.execute]
        with_reducible first
          | exact rearrange (by simp)
          | exact pure trivial
          | exact stop
          | exact mono (push (law.item_bytes (by decide))) (by decide)
          | exact mono (push (law.item_small (by decide))) (by decide)
          | exact mono verify (by decide)
          | exact mono unary_truth (by decide)
          | exact mono (unary_number fun _ => by omega) (by decide)
          | exact mono binary_truth (by decide)
          | exact mono (binary_number fun _ _ => by omega) (by decide)
          | exact mono (digest _ (by decide)) (by decide)
          | exact mono toAltStack (by decide)
          | exact mono fromAltStack (by decide)
          | exact mono (depth (hdepth rfl)) (by decide)
          | exact mono drop (by decide)
          | exact mono pick (by decide)
          | exact mono roll (by decide)
          | exact mono within (by decide)
          | exact mono equal (by decide)
          | exact mono checkSig (by decide)
          | exact mono checkMultisig (by decide)
          | exact mono checkLockTime (by decide)
          | exact mono (equal.bind_left fun _ _ => verify) (by decide)
          | exact mono (binary_truth.bind_left fun _ _ => verify) (by decide)
          | exact mono (checkSig.bind_left fun _ _ => verify) (by decide)
          | exact mono (checkMultisig.bind_left fun _ _ => verify) (by decide)

/-- A check of the size before a step puts nothing on the stacks. -/
theorem element {body : Step Unit} (hbody : Any law n body) :
  Any law n (element body)
  := checkSize.bind fun _ _ => hbody

/-- The depth is a number that is allowed when the size of the stacks has been checked. -/
theorem element_depth :
  Any law 1 (Step.element Step.depth)
  := by
  intro m hm
  rcases Nat.lt_or_ge m.limits.stackSize m.size with hlt | hle
  · exact of_error (bind_of_error (checkSize_of_lt hlt) _) (.refl hm)
      (law.error_of_isStructural rfl)
  · have hstack : m.stack.length ≤ m.limits.stackSize :=
      Nat.le_trans (Nat.le_add_right _ _) hle
    have hx : law.item (.number (m.stack.length : Int)) := law.item_depth hm.limits hstack
    exact of_ok (bind_of_ok (checkSize_of_le hle) _)
      (hm.withStack (List.forall_mem_cons.mpr ⟨hx, hm.stack⟩) (Nat.le_refl _)) trivial

/-- Every opcode obeys, if those of the structure of scripts may fail. -/
theorem element_execute {o : Opcode}
    (ho : o.isStructural = true → law.error (.execution (.structuralOpcode o))) :
  Any law 3 (Step.element (Step.execute o))
  := by
  by_cases hdepth : o = .depth
  · rw [hdepth]
    exact element_depth.mono (by decide)
  · exact element (execute ho fun h => absurd h hdepth)

/-! ### Programs -/

/-- What is executed only if nothing has stopped obeys, too. -/
theorem unlessStopped {next : Step Unit} (hnext : Any law n next) :
  Any law n (unlessStopped next)
  := by
  intro m hm
  cases hstopped : m.stopped with
  | true => exact of_ok (unlessStopped_of_stopped next hstopped) (.refl hm) trivial
  | false =>
    have e := unlessStopped_of_running next hstopped
    have hobeys := hnext m hm
    constructor
    · rw [final, e]
      exact hobeys.change
    · exact fun _ => trivial
    · exact fun h => hobeys.error (e ▸ h)

theorem enter (depth : Nat) :
  Any law 0 (enter depth)
  := get_bind fun m => (ite (fail rfl) (pure trivial)) m

/-- A program puts at most three items on the stacks for each of its tokens. -/
theorem run {p : Program} (hp : law.Admits p) (depth : Nat) :
  Any law (3 * p.tokens.length) (p.run depth)
  := by
  induction p generalizing depth with
  | done => exact pure trivial
  | push p rest ih =>
    obtain ⟨hitem, hrest⟩ := hp.of_push
    rw [Program.run]
    apply ((push hitem).element.bind_add fun _ _ => (ih hrest depth).unlessStopped).mono
    simp only [Program.tokens, List.length_cons]
    omega
  | op o rest ih =>
    obtain ⟨ho, hrest⟩ := hp.of_op
    rw [Program.run]
    apply ((element_execute ho).bind_add fun _ _ => (ih hrest depth).unlessStopped).mono
    simp only [Program.tokens, List.length_cons]
    omega
  | branch c body rest ihBody ih =>
    obtain ⟨hbody, hrest⟩ := hp.of_branch
    have hlength : body.tokens.length + rest.tokens.length
        ≤ (Program.branch c body rest).tokens.length := by
      simp only [Program.tokens, List.length_cons, List.length_append]
      omega
    rw [Program.run]
    apply mono _ (Nat.mul_le_mul_left 3 hlength)
    rw [Nat.mul_add]
    apply checkSize.bind
    intro _ _
    apply popBool.bind
    intro condition _
    apply ite
    · apply (enter depth).bind
      exact fun _ _ => (ihBody hbody _).bind_add fun _ _ => (ih hrest depth).unlessStopped
    · exact (ih hrest depth).unlessStopped.mono (Nat.le_add_left _ _)
  | branchElse c body alternative rest ihBody ihAlternative ih =>
    obtain ⟨hbody, halternative, hrest⟩ := hp.of_branchElse
    have hlength : body.tokens.length + alternative.tokens.length + rest.tokens.length
        ≤ (Program.branchElse c body alternative rest).tokens.length := by
      simp only [Program.tokens, List.length_cons, List.length_append]
      omega
    rw [Program.run]
    apply mono _ (Nat.mul_le_mul_left 3 hlength)
    rw [Nat.mul_add, Nat.mul_add]
    apply checkSize.bind
    intro _ _
    apply popBool.bind
    intro condition _
    apply (enter depth).bind
    intro _ _
    have hlast := (ih hrest depth).unlessStopped
    apply ite
    · apply ((ihBody hbody _).mono (Nat.le_add_right _ _)).bind_add fun _ _ => hlast
    · apply ((ihAlternative halternative _).mono (Nat.le_add_left _ _)).bind_add fun _ _ => hlast

/-- Every script obeys a law that admits its program, if it has one. -/
theorem runScript {script : Script} (hscript : ∀ p, script.program = .ok p → law.Admits p) :
  ∃ n, Any law n (runScript script)
  := by
  rw [runScript_eq]
  cases hp : script.program with
  | ok p => exact ⟨_, (run (hscript p hp) 1).unlessStopped⟩
  | error e =>
    have he : Any law 0 (Step.ofExcept (.error e) : Step Unit) := ofExcept_any <| by
      rintro _ ⟨⟩
      exact (Script.formal_of_program hp).isStructural_eq_false
    exact ⟨_, unlessStopped he⟩

end Obeys

end Step

end Bitcoin
