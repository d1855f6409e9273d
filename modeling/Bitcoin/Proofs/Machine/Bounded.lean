import Bitcoin.Proofs.Machine.Law
import Bitcoin.Proofs.Script.Number

/-!
# How great the numbers on the stacks are

The operands of arithmetic have at most four bytes, but its results may have five, and they are
not written out until they are used. `Item.Bounded` is what items have in common nevertheless: a
number has a magnitude below `2 ^ 32`, and a byte string a length below `2 ^ 32`, so that its
length is such a number, too. Every step of an execution leaves a machine with bounded items
bounded (`Step.KeepsBounded`), if the stacks are checked before an opcode puts their depth on
them.
-/

namespace Bitcoin

namespace Item

/-- Whether a number is of less than 33 bits, and the length of a byte string, too. -/
def Bounded : Item → Prop
  | .bytes data => data.length < 2 ^ 32
  | .number n => n.toInt.natAbs < 2 ^ 32
  | .truth _ => True

instance : DecidablePred Bounded
  | .bytes data => inferInstanceAs (Decidable (data.length < 2 ^ 32))
  | .number n => inferInstanceAs (Decidable (n.toInt.natAbs < 2 ^ 32))
  | .truth _ => inferInstanceAs (Decidable True)

variable {item : Item}

/-- A number of at most four bytes has less than 32 bits, of which one is the sign. -/
theorem natAbs_lt_of_toInt {limit : Nat} (hlimit : limit ≤ 4) {n : Int}
    (h : item.toInt limit = .ok n) :
  n.natAbs < 2 ^ 31
  := by
  cases item with
  | bytes data =>
    rw [toInt, ScriptNumber.decode] at h
    split at h
    · cases h
    · next hle =>
      split at h
      · cases h
      · cases h
        have hlt := ScriptNumber.two_mul_natAbs_value_lt data
        have hpow : 256 ^ data.length ≤ 256 ^ 4 := Nat.pow_le_pow_right (by decide) (by omega)
        omega
  | number k =>
    rw [toInt] at h
    split at h
    · cases h
    · next hle =>
      cases h
      have hlt := ScriptNumber.length_encode_le_iff.mp (Nat.le_trans (Nat.not_lt.mp hle) hlimit)
      omega
  | truth b =>
    cases h
    cases b <;> decide

/-- A bounded item has few bytes. -/
theorem Bounded.length_toBytes_lt (h : item.Bounded) :
  item.toBytes.length < 2 ^ 32
  := by
  cases item with
  | bytes data => exact h
  | number n =>
    have hlt : n.toInt.natAbs < 2 ^ 32 := h
    have hle : (ScriptNumber.encode n.toInt).length ≤ 5 :=
      ScriptNumber.length_encode_le_iff.mpr (by omega)
    exact Nat.lt_of_le_of_lt hle (by decide)
  | truth b => cases b <;> decide

/-- A number of so few bits is not changed when it is brought into a word. -/
theorem bounded_number {n : Int} (h : n.natAbs < 2 ^ 32) :
  (Item.number n).Bounded
  := by
  rw [Bounded, Int64.toInt_ofInt_of_le (by omega) (by omega)]
  apply h

end Item

namespace Machine

/-- Whether a machine has usual limits and bounded items. -/
structure Bounded (m : Machine) : Prop where
  numberLength_le : m.limits.numberLength ≤ 4
  stackSize_lt : m.limits.stackSize < 2 ^ 32
  stack : ∀ item ∈ m.stack, item.Bounded
  altStack : ∀ item ∈ m.altStack, item.Bounded

end Machine

/-! ### Programs whose pushes are short -/

/-- Whether the length of all data that a program pushes is a number of four bytes. -/
def Program.PushesShort (p : Program) : Prop :=
  ∀ push : Push, .push push ∈ p.tokens → push.data.length < 2 ^ 32

/-- Whether a script pushes short data only, if it has a program. -/
def Script.PushesShort (script : Script) : Prop :=
  ∀ p, script.program = .ok p → p.PushesShort

namespace Program

variable {c : Conditional} {body alternative rest : Program}

/-- A push in front is short, and so are the others. -/
theorem pushesShort_push_iff {p : Push} :
  (push p rest).PushesShort ↔ p.data.length < 2 ^ 32 ∧ rest.PushesShort
  := by
  simp only [PushesShort, tokens, List.mem_cons, Token.push.injEq]
  exact forall_eq_or_imp

theorem pushesShort_op_iff {o : Opcode} :
  (op o rest).PushesShort ↔ rest.PushesShort
  := by
  simp only [PushesShort, tokens, List.mem_cons, reduceCtorEq, false_or]

theorem pushesShort_branch_iff :
  (branch c body rest).PushesShort ↔ body.PushesShort ∧ rest.PushesShort
  := by
  simp only [PushesShort, tokens, List.mem_cons, List.mem_append, reduceCtorEq, false_or, or_imp,
    forall_and]

theorem pushesShort_branchElse_iff :
  (branchElse c body alternative rest).PushesShort
    ↔ body.PushesShort ∧ alternative.PushesShort ∧ rest.PushesShort
  := by
  simp only [PushesShort, tokens, List.mem_cons, List.mem_append, reduceCtorEq, false_or, or_imp,
    forall_and]

end Program

namespace Step

/-- Whether a step, on a machine, leaves a bounded machine and has a result of a sort. -/
structure BoundedAt {α : Type} (good : α → Prop) (x : Step α) (m : Machine) : Prop where
  final : (x.final m).Bounded
  result : ∀ {a m'}, x m = .ok a m' → good a

/-- Whether a step does so on every bounded machine. -/
def KeepsBounded {α : Type} (good : α → Prop) (x : Step α) : Prop :=
  ∀ m : Machine, m.Bounded → BoundedAt good x m

/-- A step whose result may be any. -/
abbrev KeepsBounded.Any {α : Type} (x : Step α) : Prop :=
  KeepsBounded (fun _ => True) x

/-- The law that allows usual limits and bounded items. -/
def Law.bounded : Law where
  limits l := l.numberLength ≤ 4 ∧ l.stackSize < 2 ^ 32
  item := Item.Bounded
  operand n := n.natAbs < 2 ^ 31
  error _ := True
  operand_of_toInt hlimits _ h := Item.natAbs_lt_of_toInt hlimits.1 h
  item_truth _ := trivial
  item_bytes h := Nat.lt_of_le_of_lt h (by decide)
  item_small h := Item.bounded_number (Nat.lt_of_le_of_lt h (by decide))
  item_length h := Item.bounded_number h.length_toBytes_lt
  item_depth hlimits h := Item.bounded_number (Nat.lt_of_le_of_lt h hlimits.2)
  item_result := by
    intro a b n ha hb h
    exact Item.bounded_number (by omega)
  error_of_isStructural _ := trivial

/-- The law allows the machines with bounded items. -/
theorem Law.allows_bounded_iff {m : Machine} :
  bounded.Allows m ↔ m.Bounded
  := ⟨fun h => ⟨h.limits.1, h.limits.2, h.stack, h.altStack⟩,
    fun h => ⟨⟨h.numberLength_le, h.stackSize_lt⟩, h.stack, h.altStack⟩⟩

/-- The law admits the programs with short pushes. -/
theorem Law.admits_bounded {p : Program} (hp : p.PushesShort) :
  bounded.Admits p
  := ⟨hp, fun _ _ _ => trivial⟩

/-- A step that obeys the law keeps machines bounded. -/
theorem Obeys.keepsBounded {α : Type} {n : Nat} {good : α → Prop} {x : Step α}
    (hx : Obeys .bounded n good x) :
  KeepsBounded good x
  := by
  intro m hm
  have hobeys := hx m (Law.allows_bounded_iff.mpr hm)
  exact ⟨Law.allows_bounded_iff.mp hobeys.change.allows, hobeys.result⟩

namespace KeepsBounded

/-- An operand has less than 32 bits, of which one is the sign. -/
theorem popInt :
  KeepsBounded (fun n : Int => n.natAbs < 2 ^ 31) popInt
  := Obeys.keepsBounded .popInt

theorem need (count : Nat) :
  Any (need count)
  := Obeys.keepsBounded (.need count)

theorem enter (depth : Nat) :
  Any (enter depth)
  := Obeys.keepsBounded (.enter depth)

/-- A bounded item may be pushed. -/
theorem element_push {x : Item} (hx : x.Bounded) :
  Any (element (push x))
  := Obeys.keepsBounded (.element (.push hx))

/-- Every opcode keeps items bounded when the size of the stacks has been checked. -/
theorem element_execute (o : Opcode) :
  Any (element (execute o))
  := Obeys.keepsBounded (.element_execute fun _ => trivial)

/-- A program keeps items bounded if its pushes are. -/
theorem run {p : Program} (hp : p.PushesShort) (depth : Nat) :
  Any (p.run depth)
  := Obeys.keepsBounded (.run (Law.admits_bounded hp) depth)

/-- A script keeps items bounded if its pushes are. -/
theorem runScript {script : Script} (hscript : script.PushesShort) :
  Any (runScript script)
  := by
  obtain ⟨_, h⟩ := Obeys.runScript fun p hp => Law.admits_bounded (hscript p hp)
  exact h.keepsBounded

end KeepsBounded

end Step

end Bitcoin
