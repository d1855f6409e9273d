import Bitcoin.Proofs.Machine.Bounded
import Mathlib.Logic.Relation

/-!
# Arithmetic does not overflow

`Execution.Next` leads from one state of the execution of a script to the next ones: over an
element, into the part of a conditional that is executed, and to the end. In all states that are
reached in this way, from empty stacks and after any other scripts, the numbers on the stacks
have five bytes at most. There an opcode does the same in whatever way its results are brought
into words of 64 bits, if those that fit into these are kept (`Machine.arithmetic_fits`): no
result wraps around.
-/

namespace Bitcoin

/-- Whether a number is a signed word of 64 bits. -/
def FitsWord (n : Int) : Prop :=
  -2 ^ 63 ≤ n ∧ n < 2 ^ 63

/-- Puts the size of the top item, brought into a word, on it. -/
def StackOp.sizeIn (word : Int → Int64) : StackOp 1 := fun items hsize =>
  items.push (.number (word (items.back hsize).toBytes.length))

/-- Executes an opcode, and brings the results of arithmetic into words in another way. -/
def Step.executeIn (word : Int → Int64) : Opcode → Step Unit
  | .add1 => unary fun a => .number (word (a + 1))
  | .sub1 => unary fun a => .number (word (a - 1))
  | .negate => unary fun a => .number (word (-a))
  | .abs => unary fun a => .number (word a.natAbs)
  | .add => binary fun a b => .number (word (a + b))
  | .sub => binary fun a b => .number (word (a - b))
  | .min => binary fun a b => .number (word (min a b))
  | .max => binary fun a b => .number (word (max a b))
  | .depth => do
    let m ← get
    push (.number (word m.stack.length))
  | .size => rearrange 1 (StackOp.sizeIn word)
  | op => execute op

/-- Checks the size of the stacks and takes the condition of a conditional. -/
def Step.takeCondition : Step Bool := do
  checkSize
  popBool

/-! ### The states of an execution -/

/-- What is left of a program, at a depth of conditionals, and the machine that executes it. -/
structure Execution where
  program : Program
  depth : Nat
  machine : Machine

/-- Whether a conditional executes a part on a condition, and what follows the conditional. -/
inductive Program.Selects (condition : Bool) : Program → (part rest : Program) → Prop where
  | body {c : Conditional} {part rest : Program} (h : c.takes condition = true) :
      Selects condition (.branch c part rest) part rest
  | first {c : Conditional} {part alternative rest : Program} (h : c.takes condition = true) :
      Selects condition (.branchElse c part alternative rest) part rest
  | second {c : Conditional} {body part rest : Program} (h : c.takes condition = false) :
      Selects condition (.branchElse c body part rest) part rest

/-- The steps of an execution. -/
inductive Execution.Next : Execution → Execution → Prop where
  /-- Over a push. -/
  | push {p : Push} {rest : Program} {depth : Nat} {m m' : Machine}
      (h : Step.element (Step.push (.bytes p.data)) m = .ok () m') (hm' : m'.stopped = false) :
      Next ⟨.push p rest, depth, m⟩ ⟨rest, depth, m'⟩
  /-- Over an opcode. -/
  | op {o : Opcode} {rest : Program} {depth : Nat} {m m' : Machine}
      (h : Step.element (Step.execute o) m = .ok () m') (hm' : m'.stopped = false) :
      Next ⟨.op o rest, depth, m⟩ ⟨rest, depth, m'⟩
  /-- Over a conditional of which no part is executed. -/
  | skip {c : Conditional} {body rest : Program} {depth : Nat} {m m' : Machine} {condition : Bool}
      (h : Step.takeCondition m = .ok condition m') (hnot : c.takes condition = false) :
      Next ⟨.branch c body rest, depth, m⟩ ⟨rest, depth, m'⟩
  /-- Into a part of a conditional. -/
  | into {p part rest : Program} {depth : Nat} {m m₁ m' : Machine} {condition : Bool}
      (h : Step.takeCondition m = .ok condition m₁) (hpart : p.Selects condition part rest)
      (henter : Step.enter depth m₁ = .ok () m') :
      Next ⟨p, depth, m⟩ ⟨part, depth + 1, m'⟩
  /-- Over a conditional of which a part is executed. -/
  | behind {p part rest : Program} {depth : Nat} {m m₁ m₂ m' : Machine} {condition : Bool}
      (h : Step.takeCondition m = .ok condition m₁) (hpart : p.Selects condition part rest)
      (henter : Step.enter depth m₁ = .ok () m₂) (hrun : part.run (depth + 1) m₂ = .ok () m')
      (hm' : m'.stopped = false) :
      Next ⟨p, depth, m⟩ ⟨rest, depth, m'⟩
  /-- To the end, which may be an error. -/
  | final {p : Program} {depth : Nat} {m : Machine} :
      Next ⟨p, depth, m⟩ ⟨.done, depth, (p.run depth).final m⟩

namespace Machine

/-- The machine after the execution of scripts, one after the other, whatever becomes of each. -/
def after (m : Machine) (scripts : List Script) : Machine :=
  scripts.foldl (fun m script => (Step.runScript script).final m) m

/-- Whether all numbers on the stacks have at most 32 bits, and so at most five bytes. -/
def NumbersFit (m : Machine) : Prop :=
  ∀ n : Int64, .number n ∈ m.stack ++ m.altStack →
    n.toInt.natAbs ≤ 2 ^ 32 - 1 ∧ (ScriptNumber.encode n.toInt).length ≤ 5

/-- Bounded numbers have room in a word. -/
theorem Bounded.numbersFit {m : Machine} (h : m.Bounded) :
  m.NumbersFit
  := by
  intro n hn
  have hitem : (Item.number n).Bounded := by
    rcases List.mem_append.mp hn with hn | hn
    · exact h.stack _ hn
    · exact h.altStack _ hn
  have hlt : n.toInt.natAbs < 2 ^ 32 := hitem
  exact ⟨Nat.le_pred_of_lt hlt, ScriptNumber.length_encode_le_iff.mpr (by omega)⟩

theorem Bounded.after {m : Machine} (h : m.Bounded) {scripts : List Script}
    (hscripts : ∀ script ∈ scripts, script.PushesShort) :
  (m.after scripts).Bounded
  := by
  induction scripts generalizing m with
  | nil => exact h
  | cons script scripts ih =>
    obtain ⟨hscript, hrest⟩ := List.forall_mem_cons.mp hscripts
    exact ih (Step.KeepsBounded.runScript hscript m h).final hrest

end Machine

/-! ### Steps keep items bounded -/

namespace Step

variable {α : Type} {good : α → Prop}

/-- A step that keeps machines bounded leaves a bounded one. -/
theorem KeepsBounded.bounded_of_ok {x : Step α} (hx : KeepsBounded good x) {m m' : Machine} {a : α}
    (hm : m.Bounded) (h : x m = .ok a m') :
  m'.Bounded
  := by
  have hfinal := (hx m hm).final
  rwa [final, h] at hfinal

theorem KeepsBounded.takeCondition :
  Any takeCondition
  := Obeys.keepsBounded (.bind .checkSize fun _ _ => .popBool)

end Step

/-- The part that is selected has short pushes, and so has the rest. -/
theorem Program.Selects.pushesShort {p part rest : Program} {condition : Bool}
    (h : p.Selects condition part rest) (hp : p.PushesShort) :
  part.PushesShort ∧ rest.PushesShort
  := by
  cases h with
  | body _ => exact pushesShort_branch_iff.mp hp
  | first _ =>
    obtain ⟨hpart, _, hrest⟩ := pushesShort_branchElse_iff.mp hp
    exact ⟨hpart, hrest⟩
  | second _ =>
    obtain ⟨_, hpart, hrest⟩ := pushesShort_branchElse_iff.mp hp
    exact ⟨hpart, hrest⟩

namespace Execution

/-- Whether the machine has bounded items, and the program pushes such. -/
structure Bounded (e : Execution) : Prop where
  machine : e.machine.Bounded
  program : e.program.PushesShort

/-- The next state of an execution is bounded if the state before is. -/
theorem Next.bounded {e e' : Execution} (h : e.Next e') (he : e.Bounded) :
  e'.Bounded
  := by
  obtain ⟨hm, hp⟩ := he
  cases h with
  | push h _ =>
    obtain ⟨hdata, hrest⟩ := Program.pushesShort_push_iff.mp hp
    have hitem : (Item.bytes _).Bounded := hdata
    exact ⟨(Step.KeepsBounded.element_push hitem).bounded_of_ok hm h, hrest⟩
  | op h _ =>
    exact ⟨(Step.KeepsBounded.element_execute _).bounded_of_ok hm h,
      Program.pushesShort_op_iff.mp hp⟩
  | skip h _ =>
    exact ⟨Step.KeepsBounded.takeCondition.bounded_of_ok hm h,
      (Program.pushesShort_branch_iff.mp hp).2⟩
  | into h hpart henter =>
    have hm₁ := Step.KeepsBounded.takeCondition.bounded_of_ok hm h
    exact ⟨(Step.KeepsBounded.enter _).bounded_of_ok hm₁ henter, (hpart.pushesShort hp).1⟩
  | behind h hpart henter hrun _ =>
    obtain ⟨hshort, hrest⟩ := hpart.pushesShort hp
    have hm₁ := Step.KeepsBounded.takeCondition.bounded_of_ok hm h
    have hm₂ := (Step.KeepsBounded.enter _).bounded_of_ok hm₁ henter
    exact ⟨(Step.KeepsBounded.run hshort _).bounded_of_ok hm₂ hrun, hrest⟩
  | final => exact ⟨(Step.KeepsBounded.run hp _ _ hm).final, nofun⟩

/-- Every state that is reached from bounded items has bounded items. -/
theorem bounded_of_reaches {e e' : Execution} (h : Relation.ReflTransGen Next e e')
    (he : e.Bounded) :
  e'.Bounded
  := by
  induction h with
  | refl => exact he
  | tail _ hnext ih => exact hnext.bounded ih

end Execution

/-! ### Words -/

/-- A number of 33 bits, one of which is the sign, is far from the ends of a word. -/
theorem fitsWord_of_natAbs_lt {n : Int} (h : n.natAbs < 2 ^ 32) :
  FitsWord n
  := by
  rw [FitsWord]
  omega

namespace Step

/-- What follows a step has to be looked at for its results and for bounded machines only. -/
theorem KeepsBounded.bind_congr {α β : Type} {good : α → Prop} {x : Step α} {f g : α → Step β}
    (hx : KeepsBounded good x) (h : ∀ a, good a → ∀ m, m.Bounded → f a m = g a m) {m : Machine}
    (hm : m.Bounded) :
  (x >>= f) m = (x >>= g) m
  := by
  cases e : x m with
  | error err m₁ => rw [bind_of_error e, bind_of_error e]
  | ok a m₁ =>
    rw [bind_of_ok e, bind_of_ok e]
    exact h a ((hx m hm).result e) m₁ (hx.bounded_of_ok hm e)

section Congruence

variable {m : Machine} (hm : m.Bounded)

include hm

/-- Only numbers of at most four bytes are operands, so that nothing else matters. -/
theorem unary_congr {f g : Int → Item} (h : ∀ a : Int, a.natAbs < 2 ^ 31 → f a = g a) :
  unary f m = unary g m
  := KeepsBounded.popInt.bind_congr (fun a ha _ _ => by rw [h a ha]) hm

/-- This holds for two operands, too. -/
theorem binary_congr {f g : Int → Int → Item}
    (h : ∀ a b : Int, a.natAbs < 2 ^ 31 → b.natAbs < 2 ^ 31 → f a b = g a b) :
  binary f m = binary g m
  := by
  apply (KeepsBounded.need 2).bind_congr _ hm
  intro _ _ m₁ hm₁
  apply KeepsBounded.popInt.bind_congr _ hm₁
  intro b hb m₂ hm₂
  apply KeepsBounded.popInt.bind_congr _ hm₂
  intro a ha _ _
  rw [h a b ha hb]

/-- Rearrangements of bounded items may differ on other items. -/
theorem rearrange_congr {n : Nat} {f g : StackOp n}
    (h : ∀ items hsize, (∀ item ∈ items, item.Bounded) → f items hsize = g items hsize) :
  rearrange n f m = rearrange n g m
  := by
  have hitems : ∀ item ∈ m.items, item.Bounded := by
    intro item hitem
    apply hm.stack
    simpa [Machine.items] using hitem
  rcases Nat.lt_or_ge m.stack.length n with hlt | hle
  · rw [rearrange_of_lt hlt, rearrange_of_lt hlt]
  · have hsize : n ≤ m.items.size := by rwa [m.size_items]
    rw [rearrange, rearrange, bind_of_ok (need_of_le hle), bind_of_ok (need_of_le hle)]
    change EStateM.Result.ok () (dite _ _ _) = EStateM.Result.ok () (dite _ _ _)
    rw [dif_pos hsize, dif_pos hsize, h m.items hsize hitems]

/-- On a bounded machine the results of all opcodes are words. -/
theorem executeIn_eq {word : Int → Int64} (hword : ∀ n, FitsWord n → (word n).toInt = n)
    (op : Opcode) :
  element (executeIn word op) m = element (execute op) m
  := by
  have hfits : ∀ n : Int, n.natAbs < 2 ^ 32 → word n = n := by
    intro n hn
    rw [← Int64.toInt_inj, hword n (fitsWord_of_natAbs_lt hn),
      Int64.toInt_ofInt_of_le (by omega) (by omega)]
  rcases Nat.lt_or_ge m.limits.stackSize m.size with hlt | hle
  · rw [element, element, bind_of_error (checkSize_of_lt hlt), bind_of_error (checkSize_of_lt hlt)]
  rw [element, element, bind_of_ok (checkSize_of_le hle), bind_of_ok (checkSize_of_le hle)]
  cases op with
  | add1 | sub1 | negate | abs =>
    apply unary_congr hm
    intro a ha
    rw [hfits _ (by omega)]
  | add | sub | min | max =>
    apply binary_congr hm
    intro a b ha hb
    rw [hfits _ (by omega)]
  | depth =>
    have hdepth : (m.stack.length : Int).natAbs < 2 ^ 32 :=
      Nat.lt_of_le_of_lt (Nat.le_trans (Nat.le_add_right _ _) hle) hm.stackSize_lt
    change push (.number (word m.stack.length)) m = push (.number (m.stack.length : Int)) m
    rw [hfits _ hdepth]
  | size =>
    change rearrange 1 (StackOp.sizeIn word) m = rearrange 1 StackOp.size m
    apply rearrange_congr hm
    intro items hsize hitems
    have hlength : ((items.back hsize).toBytes.length : Int).natAbs < 2 ^ 32 :=
      (hitems _ (Array.back_mem hsize)).length_toBytes_lt
    rw [StackOp.sizeIn, hfits _ hlength]
    rfl
  | _ => rfl

end Congruence

end Step

/-- Scripts are run from empty stacks, with numbers of at most four bytes as operands, and push
no data of which the length is too great. Then all numbers on the stacks have at most 32 bits and
five bytes, between the runs and in every state that a further run reaches. The exact results of
the next opcode are words of 64 bits, since it does not matter what becomes of other numbers when
they are brought into words. -/
theorem Machine.arithmetic_fits {m : Machine} (hstack : m.stack = []) (halt : m.altStack = [])
    (hlength : m.limits.numberLength ≤ 4) (hsize : m.limits.stackSize < 2 ^ 32)
    {scripts : List Script} (hscripts : ∀ script ∈ scripts, script.PushesShort) :
  (m.after scripts).NumbersFit
    ∧ ∀ (script : Script) (p : Program), script.PushesShort → script.program = .ok p →
      ∀ e, Relation.ReflTransGen Execution.Next ⟨p, 1, m.after scripts⟩ e →
        e.machine.NumbersFit
        ∧ ∀ (word : Int → Int64) (op : Opcode) (rest : Program),
          (∀ n, FitsWord n → (word n).toInt = n) → e.program = .op op rest →
          Step.element (Step.executeIn word op) e.machine
            = Step.element (Step.execute op) e.machine
  := by
  have hempty : m.Bounded := by
    refine ⟨hlength, hsize, ?_, ?_⟩
    · rw [hstack]
      exact List.forall_mem_nil _
    · rw [halt]
      exact List.forall_mem_nil _
  have hafter := hempty.after hscripts
  refine ⟨hafter.numbersFit, fun script p hscript hp e he => ?_⟩
  have hbounded := Execution.bounded_of_reaches he ⟨hafter, hscript p hp⟩
  exact ⟨hbounded.machine.numbersFit,
    fun _ op _ hword _ => Step.executeIn_eq hbounded.machine hword op⟩

/-- The greatest operand is pushed by one script and doubled by the next one, in words that stay at
the greatest one when the exact result is still greater. -/
theorem Machine.arithmetic_fits_doubled :
  let saturate : Int → Int64 := fun n => .ofInt (max (-2 ^ 63) (min n (2 ^ 63 - 1)))
  let greatest : Bytes := [0xff, 0xff, 0xff, 0x7f]
  let pushed := Script.assembled (.push ⟨.inline, greatest⟩ .done)
  let doubled : Program := .op .dup (.op .add .done)
  let twice : Machine := { initial with stack := [.bytes greatest, .bytes greatest] }
  (initial.after [pushed]).NumbersFit
    ∧ Relation.ReflTransGen Execution.Next ⟨doubled, 1, initial.after [pushed]⟩
      ⟨.op .add .done, 1, twice⟩
    ∧ Step.element (Step.executeIn saturate .add) twice = Step.element (Step.execute .add) twice
  := by
  intro saturate greatest pushed doubled twice
  have hpushed : pushed.PushesShort := by
    rintro _ ⟨⟩ push hpush
    cases List.mem_singleton.mp hpush
    decide
  have hdoubled : (Script.assembled doubled).PushesShort := by
    rintro _ ⟨⟩ push hpush
    simp [doubled, Program.tokens] at hpush
  have hsaturate : ∀ n, FitsWord n → (saturate n).toInt = n := by
    rintro n ⟨hlow, hhigh⟩
    have hkept : max (-2 ^ 63) (min n (2 ^ 63 - 1)) = n := by omega
    change (Int64.ofInt (max (-2 ^ 63) (min n (2 ^ 63 - 1)))).toInt = n
    rw [hkept, Int64.toInt_ofInt_of_le hlow hhigh]
  have hafter : initial.after [pushed] = { initial with stack := [.bytes greatest] } := by
    rw [after, List.foldl_cons, List.foldl_nil, Step.runScript_eq]
    rfl
  have hreaches : Relation.ReflTransGen Execution.Next ⟨doubled, 1, initial.after [pushed]⟩
      ⟨.op .add .done, 1, twice⟩ := by
    rw [hafter]
    exact .single (.op rfl rfl)
  obtain ⟨hbetween, hwithin⟩ := arithmetic_fits (m := initial) rfl rfl (by decide) (by decide)
    (List.forall_mem_singleton.mpr hpushed)
  obtain ⟨_, hwords⟩ := hwithin _ doubled hdoubled rfl _ hreaches
  exact ⟨hbetween, hreaches, hwords saturate .add .done hsaturate rfl⟩

end Bitcoin
