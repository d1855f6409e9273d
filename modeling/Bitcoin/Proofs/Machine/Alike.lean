import Bitcoin.Proofs.Machine.Law
import Bitcoin.Proofs.Script.Number
import Bitcoin.Proofs.Transaction.Commitment
import Mathlib.Data.List.Forall2

/-!
# What executions see

Executing a script sees of an item nothing but its bytes, and of the transaction that is
spent nothing but what it is without the scripts that unlock its inputs. Machines that agree
in what is seen (`Machine.Alike`) come to the same end: both executions succeed or both end
with the same error, and the machines at the end are alike again (`Step.Alike`).

Most rearrangements of the stack do not look at items at all, and whatever an opcode computes, it
computes from the numbers, truth values or bytes of its operands.

The limit on the length of numbers has to be between one and eight (`Limits.Regular`). A
truth value can be taken for a number under any limit, but its bytes only if one byte is
allowed, and no more than eight bytes are ever read as a number.
-/

namespace Bitcoin

/-! ### Items -/

/-- Whether two items have the same bytes. -/
def Item.Alike (a b : Item) : Prop :=
  a.toBytes = b.toBytes

theorem Item.Alike.refl (a : Item) :
  a.Alike a
  := rfl

/-- The truth value of an item is that of its bytes. -/
theorem Item.toBool_eq (item : Item) :
  item.toBool = ScriptNumber.isTrue item.toBytes
  := by
  cases item with
  | bytes data => rfl
  | number n =>
    have hzero : n = 0 ↔ n.toInt = 0 := Int64.toInt_inj.symm
    rw [toBool, toBytes, ScriptNumber.isTrue_encode, Bool.eq_iff_iff, bne_iff_ne, bne_iff_ne, Ne,
      Ne, hzero]
  | truth b => cases b <;> rfl

/-- Under a limit between one and eight, the number of an item is that of its bytes. -/
theorem Item.toInt_eq {limit : Nat} (hone : 1 ≤ limit) (height : limit ≤ 8) (item : Item) :
  item.toInt limit = ScriptNumber.decode item.toBytes limit
  := by
  cases item with
  | bytes data => rfl
  | number n =>
    rw [toInt, toBytes, ScriptNumber.decode, ScriptNumber.value_encode]
    split
    · rfl
    · next hle => rw [if_neg (by omega)]
  | truth b =>
    have hlength : (Item.truth b).toBytes.length ≤ 1 := by cases b <;> decide
    rw [ScriptNumber.decode, if_neg (by omega), if_neg (by omega)]
    cases b <;> rfl

theorem Item.Alike.toBool {a b : Item} (h : a.Alike b) :
  a.toBool = b.toBool
  := by
  rw [toBool_eq, toBool_eq, h]

/-- Items with the same bytes denote the same number, whatever form they have. -/
theorem Item.Alike.toInt {a b : Item} (h : a.Alike b) {limit : Nat} (hone : 1 ≤ limit)
    (height : limit ≤ 8) :
  a.toInt limit = b.toInt limit
  := by
  rw [toInt_eq hone height, toInt_eq hone height, h]

/-- Whether two stacks have items with the same bytes. -/
abbrev StackAlike (s s' : List Item) : Prop :=
  List.Forall₂ Item.Alike s s'

/-- Stacks are alike when the bytes of their items are the same. -/
theorem stackAlike_iff {s s' : List Item} :
  StackAlike s s' ↔ s.map Item.toBytes = s'.map Item.toBytes
  := by
  rw [← List.forall₂_eq_eq_eq, List.forall₂_map_left_iff, List.forall₂_map_right_iff]
  rfl

namespace StackAlike

variable {s s' : List Item}

theorem refl (s : List Item) :
  StackAlike s s
  := stackAlike_iff.mpr rfl

/-- The bytes of what is taken from the top are the same. -/
theorem take (h : StackAlike s s') (n : Nat) :
  (s.take n).map Item.toBytes = (s'.take n).map Item.toBytes
  := by
  rw [List.map_take, List.map_take, stackAlike_iff.mp h]

theorem drop (h : StackAlike s s') (n : Nat) :
  StackAlike (s.drop n) (s'.drop n)
  := by
  rw [stackAlike_iff, List.map_drop, List.map_drop, stackAlike_iff.mp h]

/-- Stacks are alike when so are the items of which they are made in the same way. -/
theorem map {n : Nat} {taken taken' : Fin n → Item} (h : ∀ i, (taken i).Alike (taken' i))
    (places : List (Fin n)) :
  StackAlike (places.map taken) (places.map taken')
  := by
  apply List.forall₂_map_left_iff.mpr
  apply List.forall₂_map_right_iff.mpr
  exact List.forall₂_same.mpr fun i _ => h i

/-- Parts of the same length are alike one by one. -/
theorem append_inj {s₁ s₂ s₁' s₂' : List Item} (h : StackAlike (s₁ ++ s₂) (s₁' ++ s₂'))
    (hlength : s₁.length = s₁'.length) :
  StackAlike s₁ s₁' ∧ StackAlike s₂ s₂'
  := by
  rw [stackAlike_iff, stackAlike_iff]
  rw [stackAlike_iff, List.map_append, List.map_append] at h
  apply List.append_inj h
  rw [List.length_map, List.length_map, hlength]

/-- Items that are taken are alike one by one. -/
theorem ofFn_iff {n : Nat} {taken taken' : Fin n → Item} :
  StackAlike (List.ofFn taken) (List.ofFn taken') ↔ ∀ i, (taken i).Alike (taken' i)
  := by
  rw [stackAlike_iff, List.map_ofFn, List.map_ofFn, List.ofFn_inj, funext_iff]
  rfl

end StackAlike

/-- The items that are not empty have the same bytes on both stacks. -/
theorem takeNonempty_of_alike {s s' : List Item} (h : StackAlike s s') (n : Nat) :
  takeNonempty n s = takeNonempty n s'
  := by
  induction h generalizing n with
  | nil => rfl
  | cons hitem _ ih =>
    cases n with
    | zero => rfl
    | succ n => rw [takeNonempty, takeNonempty, hitem, ih]

/-! ### Rearrangements -/

/-- A rearrangement sees nothing but the bytes of the items. -/
theorem StackOp.Shape.exists_alike {n : Nat} {op : StackOp n} (hop : op.Shape) :
  ∃ left, op.Leaves left ∧ ∀ {taken taken'}, (∀ i, (taken i).Alike (taken' i)) →
    StackAlike (left taken) (left taken')
  := by
  cases hop with
  | arranges places h _ => exact ⟨_, h, fun htaken => .map htaken places⟩
  | ifDup =>
    refine ⟨_, leaves_ifDup, fun {taken taken'} htaken => ?_⟩
    rw [(htaken 0).toBool]
    split
    · exact .map htaken [0, 0]
    · exact .map htaken [0]
  | size =>
    refine ⟨_, leaves_size, fun {taken taken'} htaken => ?_⟩
    rw [htaken 0]
    exact .cons (htaken 0) (.cons (.refl _) .nil)

/-! ### Inputs that are spent -/

/-- The input that is spent is there. -/
theorem Spending.getElem?_index (spending : Spending) :
  spending.transaction.inputs[spending.index]? = some spending.input
  := List.getElem?_eq_getElem spending.index_lt

/-- Inputs keep their sequence numbers without their scripts. -/
theorem Transaction.sequence_withoutScripts (tx : Transaction) (index : Nat) :
  tx.withoutScripts.inputs[index]?.map Input.sequence = tx.inputs[index]?.map Input.sequence
  := by
  rw [withoutScripts, List.getElem?_map, Option.map_map]
  rfl

/-- Whether the same input is spent, in transactions that differ at most in the scripts that
unlock their inputs. -/
structure Spending.Alike (spending spending' : Spending) : Prop where
  index : spending.index = spending'.index
  transaction : spending.transaction.withoutScripts = spending'.transaction.withoutScripts

namespace Spending.Alike

variable {spending spending' : Spending}

theorem refl (spending : Spending) :
  Alike spending spending
  := ⟨rfl, rfl⟩

/-- Digests do not depend on what unlocks the inputs. -/
theorem digest (h : spending.Alike spending') (hashType : HashType) (subScript : Script) :
  spending.transaction.digest spending.index hashType subScript
    = spending'.transaction.digest spending'.index hashType subScript
  := by
  rw [h.index, ← Transaction.digest_withoutScripts, h.transaction,
    Transaction.digest_withoutScripts]

/-- Nor does it matter for a signature. -/
theorem checkSignature (h : spending.Alike spending') (subScript : Script)
    (signature key : Bytes) :
  spending.checkSignature subScript signature key
    = spending'.checkSignature subScript signature key
  := by
  rw [Spending.checkSignature, Spending.checkSignature]
  simp only [h.digest]

/-- Nor for how many of several signatures are good. -/
theorem countMatches (h : spending.Alike spending') (subScript : Script)
    (signatures keys : List Bytes) :
  spending.countMatches subScript signatures keys
    = spending'.countMatches subScript signatures keys
  := by
  induction keys generalizing signatures with
  | nil => cases signatures <;> rfl
  | cons key keys ih =>
    cases signatures with
    | nil => rfl
    | cons signature signatures =>
      rw [Spending.countMatches, Spending.countMatches, h.checkSignature]
      simp only [ih]

/-- Nor for the time from which an output may be spent. -/
theorem lockTimeMet (h : spending.Alike spending') (demanded : Int) :
  spending.lockTimeMet demanded = spending'.lockTimeMet demanded
  := by
  have hlockTime : spending.transaction.lockTime = spending'.transaction.lockTime :=
    (Transaction.mk.inj h.transaction).2.2.2
  have hsequence : spending.input.sequence = spending'.input.sequence := by
    apply Option.some.inj
    have hinput := spending.transaction.sequence_withoutScripts spending.index
    rw [h.transaction, h.index, Transaction.sequence_withoutScripts, getElem?_index, ← h.index,
      getElem?_index] at hinput
    apply hinput.symm
  rw [Spending.lockTimeMet, Spending.lockTimeMet, hlockTime, hsequence]

end Spending.Alike

/-! ### Machines -/

/-- Whether truth values can be read as numbers from their bytes, and numbers have at most
eight bytes. -/
structure Limits.Regular (limits : Limits) : Prop where
  one_le : 1 ≤ limits.numberLength
  le_eight : limits.numberLength ≤ 8

/-- The limits that are used by default are among those considered. -/
theorem Limits.regular_standard :
  standard.Regular
  := ⟨by decide, by decide⟩

/-- Whether two machines agree in what executions see, under regular limits. -/
structure Machine.Alike (m m' : Machine) : Prop where
  regular : m.limits.Regular
  limits : m.limits = m'.limits
  stack : StackAlike m.stack m'.stack
  altStack : StackAlike m.altStack m'.altStack
  savedStack : Option.Rel StackAlike m.savedStack m'.savedStack
  stopped : m.stopped = m'.stopped
  spending? : Option.Rel Spending.Alike m.spending? m'.spending?
  subScript? : m.subScript? = m'.subScript?
  partialMultisig : m.partialMultisig = m'.partialMultisig
  matchCount : m.matchCount = m'.matchCount

namespace Machine.Alike

variable {m m' : Machine}

/-- Machines agree in what is seen when they agree in all but their stacks, and these have
items with the same bytes. -/
theorem of_stacks (hlimits : m.limits.Regular) {s s' : List Item} (hs : StackAlike m.stack s)
    (hs' : StackAlike m.altStack s') :
  m.Alike { m with stack := s, altStack := s' }
  where
  regular := hlimits
  limits := rfl
  stack := hs
  altStack := hs'
  savedStack := by
    cases m.savedStack with
    | none => exact .none
    | some s => exact .some (.refl s)
  stopped := rfl
  spending? := by
    cases m.spending? with
    | none => exact .none
    | some spending => exact .some (.refl spending)
  subScript? := rfl
  partialMultisig := rfl
  matchCount := rfl

/-- Machines stay alike when their stacks are replaced by stacks that are alike. -/
theorem withStack (h : m.Alike m') {s s' : List Item} (hstack : StackAlike s s') :
  Alike { m with stack := s } { m' with stack := s' }
  := { h with stack := hstack }

theorem size (h : m.Alike m') :
  m.size = m'.size
  := by
  rw [Machine.size, Machine.size, h.stack.length_eq, h.altStack.length_eq]

/-- Machines that are alike give the same verdict. -/
theorem valid (h : m.Alike m') :
  m.valid = m'.valid
  := by
  have htop : m.stack.head?.map Item.toBool = m'.stack.head?.map Item.toBool := by
    have hstack := h.stack
    generalize m.stack = s, m'.stack = s' at hstack
    cases hstack with
    | nil => rfl
    | cons hitem _ => exact congrArg some hitem.toBool
  rw [Machine.valid, Machine.valid, h.stopped, htop]

end Machine.Alike

namespace Step

/-- How an execution ends, apart from the machine. -/
def outcome {α : Type} (x : Step α) (m : Machine) : Except Error α :=
  match x m with
  | .ok a _ => .ok a
  | .error e _ => .error e

/-- Two ends of executions are alike: the values are related or the errors are equal, and the
machines are alike. -/
inductive SameEnd {α β : Type} (R : α → β → Prop) :
    EStateM.Result Error Machine α → EStateM.Result Error Machine β → Prop where
  | ok {a : α} {b : β} {m m' : Machine} : R a b → m.Alike m' → SameEnd R (.ok a m) (.ok b m')
  | error {e : Error} {m m' : Machine} : m.Alike m' → SameEnd R (.error e m) (.error e m')

/-- Executions with the same end have the same outcome. -/
theorem SameEnd.outcome {α : Type} {x y : Step α} {m m' : Machine}
    (h : SameEnd Eq (x m) (y m')) :
  x.outcome m = y.outcome m'
  := by
  rw [Step.outcome, Step.outcome]
  generalize x m = r, y m' = r' at h
  cases h with
  | ok hab _ => rw [hab]
  | error _ => rfl

/-- Executions with the same end leave machines that are alike. -/
theorem SameEnd.final {α β : Type} {R : α → β → Prop} {x : Step α} {y : Step β} {m m' : Machine}
    (h : SameEnd R (x m) (y m')) :
  (x.final m).Alike (y.final m')
  := by
  rw [Step.final, Step.final]
  generalize x m = r, y m' = r' at h
  cases h with
  | ok _ hm => exact hm
  | error hm => exact hm

/-- Two executions come to ends that are alike whenever the machines are. -/
def Alike {α β : Type} (R : α → β → Prop) (x : Step α) (y : Step β) : Prop :=
  ∀ m m' : Machine, m.Alike m' → SameEnd R (x m) (y m')

namespace Alike

variable {α β γ δ : Type} {R : α → β → Prop} {S : γ → δ → Prop}

/-- Results that are related are related as executions. -/
theorem pure {a : α} {b : β} (h : R a b) :
  Alike R (Pure.pure a) (Pure.pure b)
  := fun _ _ hm => .ok h hm

/-- Failing does not depend on the machine. -/
theorem fail (R : α → β → Prop) (fault : ExecutionFault) :
  Alike R (fail fault) (fail fault)
  := fun _ _ hm => .error hm

theorem ofExcept (x : Except Error α) :
  Alike Eq (ofExcept x) (ofExcept x)
  := by
  intro m m' hm
  cases x with
  | ok a => exact .ok rfl hm
  | error e => exact .error hm

/-- Steps in a row are alike if the second ones are for all results that the first ones may have.
-/
theorem bind {x : Step α} {y : Step β} {f : α → Step γ} {g : β → Step δ} (hxy : Alike R x y)
    (hfg : ∀ a b, R a b → Alike S (f a) (g b)) :
  Alike S (x >>= f) (y >>= g)
  := by
  intro m m' hm
  have hend := hxy m m' hm
  change SameEnd S (EStateM.bind x f m) (EStateM.bind y g m')
  rw [EStateM.bind, EStateM.bind]
  generalize x m = r, y m' = r' at hend
  cases hend with
  | ok hab hm => apply hfg _ _ hab _ _ hm
  | error hm => exact .error hm

/-- Equal values are handed on. -/
theorem bind_eq {x y : Step α} {f : α → Step γ} {g : α → Step δ} (hxy : Alike Eq x y)
    (hfg : ∀ a, Alike S (f a) (g a)) :
  Alike S (x >>= f) (y >>= g)
  := by
  apply hxy.bind
  rintro a _ rfl
  apply hfg a

/-- Steps that look at the machine are alike if they are on all machines that are. -/
theorem get_bind {f g : Machine → Step α} {R : α → α → Prop}
    (h : ∀ m m' : Machine, m.Alike m' → SameEnd R ((f m).run m) ((g m').run m')) :
  Alike R (get >>= f) (get >>= g)
  := h

theorem ite {c c' : Prop} [Decidable c] [Decidable c'] {x y : Step α} {x' y' : Step β}
    (hc : c ↔ c') (hx : Alike R x x') (hy : Alike R y y') :
  Alike R (if c then x else y) (if c' then x' else y')
  := by
  by_cases h : c
  · rw [if_pos h, if_pos (hc.mp h)]
    apply hx
  · rw [if_neg h, if_neg fun h' => h (hc.mpr h')]
    apply hy

/-- A change of the machine is alike if it keeps machines alike. -/
theorem modify {f g : Machine → Machine} (h : ∀ m m' : Machine, m.Alike m' → (f m).Alike (g m')) :
  Alike Eq (modify f) (modify g)
  := fun m m' hm => .ok rfl (h m m' hm)

theorem stop :
  Alike Eq stop stop
  := modify fun _ _ hm => { hm with stopped := rfl }

theorem push {a b : Item} (h : a.Alike b) :
  Alike Eq (push a) (push b)
  := modify fun _ _ hm => hm.withStack (.cons h hm.stack)

/-- The item on top is taken, or there is none. -/
theorem takeTop {x : Step Item} {e : Error}
    (hx : ∀ m : Machine, x m = match m.stack with
      | [] => .error e m
      | item :: stack => .ok item { m with stack }) :
  Alike Item.Alike x x
  := by
  intro m m' hm
  have hstack := hm.stack
  rw [hx, hx]
  generalize m.stack = s, m'.stack = s' at hstack
  cases hstack with
  | nil => exact .error hm
  | cons hitem hrest => exact .ok hitem (hm.withStack hrest)

/-- The items on top are alike. -/
theorem pop :
  Alike Item.Alike pop pop
  := takeTop fun _ => rfl

theorem popBytes :
  Alike Eq popBytes popBytes
  := pop.bind fun _ _ hitem => pure hitem

/-- The truth value on top is the same, as it is that of the bytes. -/
theorem popBool :
  Alike Eq popBool popBool
  := pop.bind fun _ _ hitem => pure hitem.toBool

/-- The number on top is the same, as it is that of the bytes. -/
theorem popInt :
  Alike Eq popInt popInt
  := by
  apply get_bind
  intro m m' hm
  apply bind pop _ m m' hm
  intro a b hitem
  rw [← hm.limits, hitem.toInt hm.regular.one_le hm.regular.le_eight]
  apply ofExcept

/-- There are equally many items to be counted. -/
theorem need (n : Nat) :
  Alike Eq (need n) (need n)
  := by
  apply get_bind
  intro m m' hm
  apply ite _ (fail _ _) (pure rfl) m m' hm
  rw [hm.stack.length_eq]

theorem checkSize :
  Alike Eq checkSize checkSize
  := by
  apply get_bind
  intro m m' hm
  rw [hm.size, hm.limits]
  apply ite Iff.rfl (fail _ _) (pure rfl) m m' hm

/-- The contexts are alike, with the same script. -/
theorem context :
  Alike (fun p q => p.1.Alike q.1 ∧ p.2 = q.2) context context
  := by
  apply get_bind
  intro m m' hm
  have hspending := hm.spending?
  rw [← hm.subScript?]
  generalize m.spending? = spending?, m'.spending? = spending?' at hspending
  cases hspending with
  | none => apply fail _ _ m m' hm
  | some hspending =>
    cases m.subScript? with
    | none => apply fail _ _ m m' hm
    | some subScript => apply pure ⟨hspending, rfl⟩ m m' hm

theorem verify :
  Alike Eq verify verify
  := popBool.bind_eq fun _ => ite Iff.rfl stop (pure rfl)

/-! ### Opcodes that move items -/

/-- A rearrangement leaves items that are alike, whatever its shape. -/
theorem rearrange {n : Nat} {op : StackOp n} (hop : op.Shape) :
  Alike Eq (rearrange n op) (rearrange n op)
  := by
  intro m m' hm
  rcases Nat.lt_or_ge m.stack.length n with hlt | hle
  · rw [rearrange_of_lt hlt, rearrange_of_lt (hm.stack.length_eq ▸ hlt)]
    exact .error hm
  · obtain ⟨left, hleaves, hleft⟩ := hop.exists_alike
    obtain ⟨taken, rest, hstack⟩ := exists_taken hle
    obtain ⟨taken', rest', hstack'⟩ := exists_taken (hm.stack.length_eq ▸ hle)
    have halike := hm.stack
    rw [hstack, hstack'] at halike
    obtain ⟨htop, hrest⟩ := halike.append_inj (by simp)
    have htaken := StackAlike.ofFn_iff.mp (List.forall₂_reverse_iff.mp htop)
    rw [rearrange_of_leaves hleaves hstack, rearrange_of_leaves hleaves hstack']
    exact .ok rfl (hm.withStack (List.rel_append (List.rel_reverse (hleft htaken)) hrest))

theorem drop :
  Alike Eq drop drop
  := pop.bind fun _ _ _ => pure rfl

theorem toAltStack :
  Alike Eq toAltStack toAltStack
  := pop.bind fun _ _ hitem => modify fun _ _ hm => { hm with altStack := .cons hitem hm.altStack }

theorem fromAltStack :
  Alike Eq fromAltStack fromAltStack
  := by
  intro m m' hm
  have haltStack := hm.altStack
  rw [Step.fromAltStack, Step.fromAltStack]
  generalize m.altStack = s, m'.altStack = s' at haltStack
  cases haltStack with
  | nil => exact .error hm
  | cons hitem hrest =>
    exact .ok rfl { hm with stack := .cons hitem hm.stack, altStack := hrest }

theorem depth :
  Alike Eq depth depth
  := by
  apply get_bind
  intro m m' hm
  rw [hm.stack.length_eq]
  apply push (.refl _) m m' hm

/-- Equally many items stand above the one that is brought up, since the counts are the same. -/
theorem bringCounted (op : Opcode) {bring : BringUp} {left : Item → List Item → List Item}
    (hbring : bring.Leaves left)
    (hleft : ∀ {x x' : Item} {above above' : List Item}, x.Alike x' → StackAlike above above' →
      StackAlike (left x above) (left x' above')) :
  Alike Eq (bringCounted op bring) (bringCounted op bring)
  := by
  apply (need 2).bind_eq
  intro _
  apply popInt.bind_eq
  intro n m m' hm
  rcases exists_above m.stack n with h | ⟨above, x, rest, hstack, rfl⟩
  · rw [bringUp_of_outside h, bringUp_of_outside (hm.stack.length_eq ▸ h)]
    exact .error hm
  · have hlength : above.length < m'.stack.length := by
      rw [← hm.stack.length_eq, hstack]
      simp
    obtain ⟨above', x', rest', hstack', hcount⟩ :=
      (exists_above m'.stack above.length).resolve_left (by omega)
    have halike := hm.stack
    rw [hstack, hstack'] at halike
    obtain ⟨habove, _ | ⟨hx, hrest⟩⟩ := halike.append_inj (by simpa using hcount)
    have hleft' := hleft hx (List.forall₂_reverse_iff.mp habove)
    rw [bringUp_of_above hbring hstack, hcount, bringUp_of_above hbring hstack']
    exact .ok rfl (hm.withStack (List.rel_append (List.rel_reverse hleft') hrest))

theorem pick :
  Alike Eq pick pick
  := bringCounted _ BringUp.leaves_copy fun hx habove =>
    .cons hx (List.rel_append habove (.cons hx .nil))

theorem roll :
  Alike Eq roll roll
  := bringCounted _ BringUp.leaves_move fun hx habove => List.rel_append habove (.cons hx .nil)

/-! ### Opcodes that compute

Whatever an opcode computes, the operands are equal. -/

/-- What is computed from a number is equal, even if the operand was not. -/
theorem unary (f : Int → Item) :
  Alike Eq (unary f) (unary f)
  := popInt.bind_eq fun _ => push (.refl _)

theorem binary (f : Int → Int → Item) :
  Alike Eq (binary f) (binary f)
  := (need 2).bind_eq fun _ => popInt.bind_eq fun _ => popInt.bind_eq fun _ => push (.refl _)

theorem within :
  Alike Eq within within
  := (need 3).bind_eq fun _ => popInt.bind_eq fun _ => popInt.bind_eq fun _ =>
    popInt.bind_eq fun _ => push (.refl _)

theorem equal :
  Alike Eq equal equal
  := (need 2).bind_eq fun _ => popBytes.bind_eq fun _ => popBytes.bind_eq fun _ => push (.refl _)

theorem digest {n : Nat} (hash : Bytes → FixedBytes n) :
  Alike Eq (digest hash) (digest hash)
  := popBytes.bind_eq fun _ => push (.refl _)

/-! ### Opcodes that look at the transaction -/

/-- A signature and its key are taken as bytes. -/
theorem checkSig :
  Alike Eq checkSig checkSig
  := by
  apply (need 2).bind_eq
  intro _
  apply context.bind
  rintro ⟨spending, subScript⟩ ⟨spending', _⟩ ⟨hspending, rfl⟩
  apply popBytes.bind_eq
  intro key
  apply popBytes.bind_eq
  intro signature
  apply (ofExcept _).bind_eq
  intro stripped
  dsimp only at hspending ⊢
  rw [hspending.checkSignature]
  exact (ofExcept _).bind_eq fun _ => push (.refl _)

theorem popMany (n : Nat) :
  Alike Eq (popMany n) (popMany n)
  := by
  apply (need n).bind_eq
  intro _
  apply get_bind
  intro m m' hm
  have hbytes := congrArg List.reverse (hm.stack.take n)
  exact .ok hbytes (hm.withStack (hm.stack.drop n))

/-- Taking up to an empty item depends on the bytes alone. -/
theorem popNonempty (n : Nat) :
  Alike Eq (popNonempty n) (popNonempty n)
  := by
  apply get_bind
  intro m m' hm
  rw [takeNonempty_of_alike hm.stack]
  exact .ok rfl (hm.withStack (hm.stack.drop _))

theorem popExtra :
  Alike Item.Alike popExtra popExtra
  := takeTop fun _ => rfl

theorem popKeys :
  Alike Eq popKeys popKeys
  := popInt.bind_eq fun _ => ite Iff.rfl (fail _ _) (popMany _)

theorem popRequired (keys : Nat) :
  Alike Eq (popRequired keys) (popRequired keys)
  := popInt.bind_eq fun _ => ite Iff.rfl (fail _ _) (pure rfl)

theorem popSignatures (required : Nat) :
  Alike Eq (popSignatures required) (popSignatures required)
  := by
  apply get_bind
  intro m m' hm
  rw [hm.partialMultisig]
  apply ite Iff.rfl (popNonempty _) (popMany _) m m' hm

/-- All keys and signatures are taken as bytes, and the counts as numbers. -/
theorem checkMultisig :
  Alike Eq checkMultisig checkMultisig
  := by
  apply context.bind
  rintro ⟨spending, subScript⟩ ⟨spending', _⟩ ⟨hspending, rfl⟩
  apply popKeys.bind_eq
  intro keys
  apply (popRequired _).bind_eq
  intro required
  apply (popSignatures _).bind_eq
  intro signatures
  apply popExtra.bind
  intro extra extra' hextra
  apply (ofExcept _).bind_eq
  intro stripped
  dsimp only at hspending ⊢
  rw [hspending.countMatches, hextra]
  apply (ofExcept _).bind_eq
  intro count
  apply bind_eq
  · exact modify fun _ _ hm => { hm with matchCount := rfl }
  · exact fun _ => push (.refl _)

/-- The time that is demanded is read from the bytes on top, which stay there. -/
theorem checkLockTime :
  Alike Eq checkLockTime checkLockTime
  := by
  apply context.bind
  rintro ⟨spending, subScript⟩ ⟨spending', _⟩ ⟨hspending, rfl⟩
  apply (need 1).bind_eq
  intro _
  apply get_bind
  intro m m' hm
  have htop : (m.stack.headD (.bytes [])).Alike (m'.stack.headD (.bytes [])) := by
    have hstack := hm.stack
    generalize m.stack = s, m'.stack = s' at hstack
    cases hstack with
    | nil => exact .refl _
    | cons hitem _ => exact hitem
  dsimp only at hspending ⊢
  rw [htop.toInt (by decide) (by decide)]
  apply bind_eq (ofExcept _) _ m m' hm
  intro demanded
  rw [hspending.lockTimeMet]
  exact ite Iff.rfl stop (pure rfl)

/-! ### Executions -/

/-- Every opcode sees of the machine what alike machines agree in. -/
theorem execute (op : Opcode) :
  Alike Eq (execute op) (execute op)
  := by
  cases op <;> dsimp only [Step.execute] <;> with_reducible first
    | exact push (.refl _)
    | exact pure rfl
    | exact stop
    | exact fail _ _
    | exact verify
    | exact rearrange (by simp)
    | exact unary _
    | exact binary _
    | exact digest _
    | exact toAltStack
    | exact fromAltStack
    | exact depth
    | exact drop
    | exact pick
    | exact roll
    | exact within
    | exact equal
    | exact checkSig
    | exact checkMultisig
    | exact checkLockTime
    | exact equal.bind_eq fun _ => verify
    | exact (binary _).bind_eq fun _ => verify
    | exact checkSig.bind_eq fun _ => verify
    | exact checkMultisig.bind_eq fun _ => verify

theorem unlessStopped {x y : Step Unit} (h : Alike Eq x y) :
  Alike Eq (unlessStopped x) (unlessStopped y)
  := by
  intro m m' hm
  cases hstopped : m.stopped with
  | true =>
    rw [unlessStopped_of_stopped x hstopped,
      unlessStopped_of_stopped y (hm.stopped.symm.trans hstopped)]
    exact .ok rfl hm
  | false =>
    rw [unlessStopped_of_running x hstopped,
      unlessStopped_of_running y (hm.stopped.symm.trans hstopped)]
    apply h m m' hm

/-- An element is alike if its body is. -/
theorem element {body : Step Unit} (h : Alike Eq body body) :
  Alike Eq (element body) (element body)
  := checkSize.bind_eq fun _ => h

theorem enter (depth : Nat) :
  Alike Eq (enter depth) (enter depth)
  := by
  apply get_bind
  intro m m' hm
  rw [hm.limits]
  apply ite Iff.rfl (fail _ _) (pure rfl) m m' hm

/-- Every program comes to the same end on machines that are alike. -/
theorem run (p : Program) (depth : Nat) :
  Alike Eq (p.run depth) (p.run depth)
  := by
  induction p generalizing depth with
  | done => apply pure rfl
  | push p rest ih => exact (element (push (.refl _))).bind_eq fun _ => unlessStopped (ih depth)
  | op o rest ih => exact (element (execute o)).bind_eq fun _ => unlessStopped (ih depth)
  | branch c body rest ihBody ih =>
    apply checkSize.bind_eq
    intro _
    apply popBool.bind_eq
    intro condition
    apply ite Iff.rfl
    · exact (enter _).bind_eq fun _ => (ihBody _).bind_eq fun _ => unlessStopped (ih _)
    · exact unlessStopped (ih _)
  | branchElse c body alternative rest ihBody ihAlternative ih =>
    apply checkSize.bind_eq
    intro _
    apply popBool.bind_eq
    intro condition
    apply (enter _).bind_eq
    intro _
    apply ite Iff.rfl
    · exact (ihBody _).bind_eq fun _ => unlessStopped (ih _)
    · exact (ihAlternative _).bind_eq fun _ => unlessStopped (ih _)

/-- Every script comes to the same end on machines that are alike. -/
theorem runScript (script : Script) :
  Alike Eq (runScript script) (runScript script)
  := by
  rw [runScript_eq]
  exact unlessStopped ((ofExcept _).bind_eq fun p => run p 1)

end Alike

/-- Executing a script sees nothing of the items but their bytes: two machines whose stacks have
items with the same bytes, and which agree otherwise, come to the same outcome, stop or do not
stop together, match as many signatures, accept or do not accept together, and end with
stacks whose items have the same bytes again. -/
theorem runScript_of_sameBytes {m : Machine} (hlimits : m.limits.Regular) (script : Script)
    {stack altStack : List Item}
    (hstack : m.stack.map Item.toBytes = stack.map Item.toBytes)
    (haltStack : m.altStack.map Item.toBytes = altStack.map Item.toBytes) :
  let m' := { m with stack, altStack }
  let n := (runScript script).final m
  let n' := (runScript script).final m'
  (runScript script).outcome m = (runScript script).outcome m'
    ∧ n.stopped = n'.stopped ∧ n.matchCount = n'.matchCount ∧ n.valid = n'.valid
    ∧ n.stack.map Item.toBytes = n'.stack.map Item.toBytes
    ∧ n.altStack.map Item.toBytes = n'.altStack.map Item.toBytes
  := by
  intro m' n n'
  have hm : m.Alike m' :=
    .of_stacks hlimits (stackAlike_iff.mpr hstack) (stackAlike_iff.mpr haltStack)
  have hend := Alike.runScript script m m' hm
  have hn : n.Alike n' := hend.final
  exact ⟨hend.outcome, hn.stopped, hn.matchCount, hn.valid, stackAlike_iff.mp hn.stack,
    stackAlike_iff.mp hn.altStack⟩

/-- The truth value on top of the number three is tucked below it and added to it, as bytes and
as typed items. -/
theorem runScript_of_sameBytes_tuckAdd :
  Machine.initial.limits.Regular
    ∧ [Item.truth true, .number 3].map Item.toBytes = [Item.bytes [1], .bytes [3]].map Item.toBytes
    ∧ ((runScript (.encoded [0x7d, 0x93])).final
        { Machine.initial with stack := [.truth true, .number 3] }).stack
      = [.number 4, .truth true]
    ∧ ((runScript (.encoded [0x7d, 0x93])).final
        { Machine.initial with stack := [.bytes [1], .bytes [3]] }).stack.map Item.toBytes
      = [[4], [1]]
  := by
  have hstack : [Item.truth true, .number 3].map Item.toBytes
      = [Item.bytes [1], .bytes [3]].map Item.toBytes := by decide
  have htyped : ((runScript (.encoded [0x7d, 0x93])).final
        { Machine.initial with stack := [.truth true, .number 3] }).stack
      = [.number 4, .truth true] := by decide +kernel
  obtain ⟨-, -, -, -, hbytes, -⟩ := @runScript_of_sameBytes
    { Machine.initial with stack := [.truth true, .number 3] } Limits.regular_standard
    (.encoded [0x7d, 0x93]) [.bytes [1], .bytes [3]] [] hstack rfl
  refine ⟨Limits.regular_standard, hstack, htyped, ?_⟩
  rw [htyped] at hbytes
  apply hbytes.symm

end Step

end Bitcoin
