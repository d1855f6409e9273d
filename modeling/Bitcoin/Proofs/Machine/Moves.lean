import Bitcoin.Proofs.Machine.Rearrangement
import Mathlib.Data.Fin.VecNotation
import Mathlib.Tactic.ByContra

/-!
# Opcodes that move items

`Opcode.Moves` lists what the opcodes that move items take from the top of the stack and what
they leave there. What lies below, and everything else in the machine, stays as it is; two
opcodes move an item between the stacks (`Opcode.Effect`). Such an opcode is refused if the items
are not there, or if the number that tells an item is none or tells no item (`Opcode.Refuses`).
It has its effect exactly when it is not refused (`Step.execute_iff_effect`).
-/

namespace Bitcoin

/-- Whether an item has a number in at most so many bytes. Eight bytes are always the most. -/
def Item.IsNumber (limit : Nat) : Item → Prop
  | .bytes data => data.length ≤ limit ∧ data.length ≤ 8
  | .number n => (ScriptNumber.encode n.toInt).length ≤ limit
  | .truth _ => True

namespace Opcode

/-- The items that an opcode takes from the top of the stack and those that it leaves there, with
the top one last. -/
inductive Moves (limit : Nat) : Opcode → (taken left : List Item) → Prop where
  | drop2 (x₁ x₂ : Item) : Moves limit .drop2 [x₁, x₂] []
  | dup2 (x₁ x₂ : Item) : Moves limit .dup2 [x₁, x₂] [x₁, x₂, x₁, x₂]
  | dup3 (x₁ x₂ x₃ : Item) : Moves limit .dup3 [x₁, x₂, x₃] [x₁, x₂, x₃, x₁, x₂, x₃]
  | over2 (x₁ x₂ x₃ x₄ : Item) :
      Moves limit .over2 [x₁, x₂, x₃, x₄] [x₁, x₂, x₃, x₄, x₁, x₂]
  | rot2 (x₁ x₂ x₃ x₄ x₅ x₆ : Item) :
      Moves limit .rot2 [x₁, x₂, x₃, x₄, x₅, x₆] [x₃, x₄, x₅, x₆, x₁, x₂]
  | swap2 (x₁ x₂ x₃ x₄ : Item) : Moves limit .swap2 [x₁, x₂, x₃, x₄] [x₃, x₄, x₁, x₂]
  | nip (x₁ x₂ : Item) : Moves limit .nip [x₁, x₂] [x₂]
  | over (x₁ x₂ : Item) : Moves limit .over [x₁, x₂] [x₁, x₂, x₁]
  | rot (x₁ x₂ x₃ : Item) : Moves limit .rot [x₁, x₂, x₃] [x₂, x₃, x₁]
  | swap (x₁ x₂ : Item) : Moves limit .swap [x₁, x₂] [x₂, x₁]
  | tuck (x₁ x₂ : Item) : Moves limit .tuck [x₁, x₂] [x₂, x₁, x₂]
  | dup (x : Item) : Moves limit .dup [x] [x, x]
  | drop (x : Item) : Moves limit .drop [x] []
  | ifDup_true {x : Item} (h : x.toBool = true) : Moves limit .ifDup [x] [x, x]
  | ifDup_false {x : Item} (h : x.toBool = false) : Moves limit .ifDup [x] [x]
  | pick {count : Item} (x : Item) {above : List Item}
      (h : count.toInt limit = .ok (above.length : Int)) :
      Moves limit .pick (x :: above ++ [count]) (x :: above ++ [x])
  | roll {count : Item} (x : Item) {above : List Item}
      (h : count.toInt limit = .ok (above.length : Int)) :
      Moves limit .roll (x :: above ++ [count]) (above ++ [x])

/-- The effect of an opcode that moves items. -/
inductive Effect : Opcode → Machine → Machine → Prop where
  | moves {op : Opcode} {m : Machine} {taken left rest : List Item}
      (h : Moves m.limits.numberLength op taken left) (hstack : m.stack = taken.reverse ++ rest) :
      Effect op m { m with stack := left.reverse ++ rest }
  | toAltStack {m : Machine} {item : Item} {rest : List Item} (hstack : m.stack = item :: rest) :
      Effect .toAltStack m { m with stack := rest, altStack := item :: m.altStack }
  | fromAltStack {m : Machine} {item : Item} {rest : List Item}
      (hstack : m.altStack = item :: rest) :
      Effect .fromAltStack m { m with stack := item :: m.stack, altStack := rest }

/-- The number of items that an opcode needs on the stack, if it moves items. -/
def needed? : Opcode → Option Nat
  | .fromAltStack => some 0
  | .toAltStack | .dup | .drop | .ifDup => some 1
  | .drop2 | .dup2 | .nip | .over | .swap | .tuck | .pick | .roll => some 2
  | .dup3 | .rot => some 3
  | .over2 | .swap2 => some 4
  | .rot2 => some 6
  | _ => none

/-- Why an opcode that moves items is refused. -/
inductive Refuses : Opcode → Machine → Prop where
  | tooFew {op : Opcode} {m : Machine} {n : Nat} (h : op.needed? = some n)
      (hlt : m.stack.length < n) : Refuses op m
  | noItem {m : Machine} (h : m.altStack = []) : Refuses .fromAltStack m
  | notNumber {op : Opcode} {m : Machine} {count : Item} {rest : List Item}
      (hop : op = .pick ∨ op = .roll) (hstack : m.stack = count :: rest)
      (h : ¬ count.IsNumber m.limits.numberLength) : Refuses op m
  | outOfRange {op : Opcode} {m : Machine} {count : Item} {rest : List Item} {n : Int}
      (hop : op = .pick ∨ op = .roll) (hstack : m.stack = count :: rest)
      (hcount : count.toInt m.limits.numberLength = .ok n)
      (h : n < 0 ∨ (rest.length : Int) ≤ n) : Refuses op m

end Opcode

/-- An item is read as a number exactly if it has one within the limit. -/
theorem Item.exists_toInt_iff {item : Item} {limit : Nat} :
  (∃ n, item.toInt limit = .ok n) ↔ item.IsNumber limit
  := by
  cases item with
  | bytes data =>
    rw [toInt, ScriptNumber.decode, IsNumber]
    split
    · next h =>
      apply iff_of_false
      · rintro ⟨_, ⟨⟩⟩
      · exact fun hle => absurd hle.1 (Nat.not_le.mpr h)
    · next h =>
      split
      · next h8 =>
        apply iff_of_false
        · rintro ⟨_, ⟨⟩⟩
        · exact fun hle => absurd hle.2 (Nat.not_le.mpr h8)
      · next h8 => exact iff_of_true ⟨_, rfl⟩ ⟨Nat.not_lt.mp h, Nat.not_lt.mp h8⟩
  | number n =>
    rw [toInt, IsNumber]
    split
    · next h =>
      apply iff_of_false
      · rintro ⟨_, ⟨⟩⟩
      · exact Nat.not_le.mpr h
    · next h => exact iff_of_true ⟨_, rfl⟩ (Nat.not_lt.mp h)
  | truth b => exact iff_of_true ⟨_, rfl⟩ trivial

namespace Step

variable {m m' : Machine} {op : Opcode}

/-! ### Effects -/

/-- The two opcodes differ only in what they make of the item that is brought up. -/
theorem exists_execute_eq_bringCounted (h : op = .pick ∨ op = .roll) :
  ∃ bring, execute op = bringCounted op bring
  := by
  rcases h with rfl | rfl
  · exact ⟨.copy, rfl⟩
  · exact ⟨.move, rfl⟩

section BringCounted

variable {bring : BringUp} {count : Item} {rest : List Item}

/-- A number is taken from above other items, and brings one of them up. -/
theorem bringCounted_of_toInt (hstack : m.stack = count :: rest) (hrest : rest ≠ []) {n : Int}
    (hcount : count.toInt m.limits.numberLength = .ok n) :
  bringCounted op bring m = bringUp op bring n { m with stack := rest }
  := by
  have hlength : 2 ≤ m.stack.length := by
    rw [hstack, List.length_cons]
    have hpos := List.length_pos_iff.mpr hrest
    omega
  have hpop : popInt m = .ok n { m with stack := rest } := by
    rw [popInt_of_cons hstack, hcount]
    rfl
  rw [bringCounted, bind_of_ok (need_of_le hlength), bind_of_ok hpop]

/-- The number of the items above an item brings it up. -/
theorem bringCounted_of_length {left : Item → List Item → List Item} (hbring : bring.Leaves left)
    {x : Item} {above : List Item} (hstack : m.stack = (x :: above ++ [count]).reverse ++ rest)
    (hcount : count.toInt m.limits.numberLength = .ok (above.length : Int)) :
  bringCounted op bring m = .ok () { m with stack := (left x above).reverse ++ rest }
  := by
  have hstack' : m.stack = count :: (above.reverse ++ x :: rest) := by
    rw [hstack]
    simp
  rw [bringCounted_of_toInt hstack' (by simp) hcount, bringUp_of_above hbring rfl]

/-- An item on top that has no number tells none. -/
theorem exists_error_of_not_isNumber (hstack : m.stack = count :: rest)
    (h : ¬ count.IsNumber m.limits.numberLength) :
  ∃ e m', bringCounted op bring m = .error e m'
  := by
  rcases Nat.lt_or_ge m.stack.length 2 with hlt | hle
  · exact ⟨_, _, bind_of_error (need_of_lt hlt) _⟩
  · cases hcount : count.toInt m.limits.numberLength with
    | ok n => exact absurd (Item.exists_toInt_iff.mp ⟨n, hcount⟩) h
    | error e =>
      have hpop : popInt m = .error e { m with stack := rest } := by
        rw [popInt_of_cons hstack, hcount]
        rfl
      rw [bringCounted, bind_of_ok (need_of_le hle), bind_of_error hpop]
      exact ⟨_, _, rfl⟩

/-- A number that is negative or too great tells none. -/
theorem exists_error_of_out_of_range (hstack : m.stack = count :: rest) {n : Int}
    (hcount : count.toInt m.limits.numberLength = .ok n) (h : n < 0 ∨ (rest.length : Int) ≤ n) :
  ∃ e m', bringCounted op bring m = .error e m'
  := by
  by_cases hrest : rest = []
  · have hlt : m.stack.length < 2 := by
      rw [hstack, hrest]
      exact Nat.lt_succ_self 1
    exact ⟨_, _, bind_of_error (need_of_lt hlt) _⟩
  · rw [bringCounted_of_toInt hstack hrest hcount]
    exact ⟨_, _, bringUp_of_outside h⟩

end BringCounted

/-- The items on top are left at the places that a rearrangement gives them. -/
theorem rearrange_of_arranges {n : Nat} {f : StackOp n} {places : List (Fin n)}
    (hf : f.Arranges places) (taken : Fin n → Item) {rest : List Item}
    (hstack : m.stack = (List.ofFn taken).reverse ++ rest) :
  rearrange n f m = .ok () { m with stack := (places.map taken).reverse ++ rest }
  := rearrange_of_leaves hf hstack

/-- An opcode that has an effect does not fail, and has no other one. -/
theorem execute_of_effect (h : op.Effect m m') :
  execute op m = .ok () m'
  := by
  cases h with
  | toAltStack hstack => exact bind_of_ok (pop_of_cons hstack) _
  | fromAltStack hstack => exact fromAltStack_of_cons hstack
  | moves h hstack =>
    cases h with
    | drop x => exact bind_of_ok (pop_of_cons hstack) _
    | drop2 x₁ x₂ => exact rearrange_of_arranges StackOp.arranges_drop2 ![x₁, x₂] hstack
    | dup2 x₁ x₂ => exact rearrange_of_arranges StackOp.arranges_dup2 ![x₁, x₂] hstack
    | dup3 x₁ x₂ x₃ => exact rearrange_of_arranges StackOp.arranges_dup3 ![x₁, x₂, x₃] hstack
    | over2 x₁ x₂ x₃ x₄ =>
      exact rearrange_of_arranges StackOp.arranges_over2 ![x₁, x₂, x₃, x₄] hstack
    | rot2 x₁ x₂ x₃ x₄ x₅ x₆ =>
      exact rearrange_of_arranges StackOp.arranges_rot2 ![x₁, x₂, x₃, x₄, x₅, x₆] hstack
    | swap2 x₁ x₂ x₃ x₄ =>
      exact rearrange_of_arranges StackOp.arranges_swap2 ![x₁, x₂, x₃, x₄] hstack
    | nip x₁ x₂ => exact rearrange_of_arranges StackOp.arranges_nip ![x₁, x₂] hstack
    | «over» x₁ x₂ => exact rearrange_of_arranges StackOp.arranges_dupSecond ![x₁, x₂] hstack
    | rot x₁ x₂ x₃ => exact rearrange_of_arranges StackOp.arranges_rot ![x₁, x₂, x₃] hstack
    | swap x₁ x₂ => exact rearrange_of_arranges StackOp.arranges_swap ![x₁, x₂] hstack
    | tuck x₁ x₂ => exact rearrange_of_arranges StackOp.arranges_tuck ![x₁, x₂] hstack
    | dup x => exact rearrange_of_arranges StackOp.arranges_dup ![x] hstack
    | @ifDup_true x h =>
      have htop : (![x] 0).toBool = true := h
      have hleft := @rearrange_of_leaves m 1 _ _ StackOp.leaves_ifDup ![x] _ hstack
      rw [if_pos htop] at hleft
      exact hleft
    | @ifDup_false x h =>
      have htop : ¬ (![x] 0).toBool = true := Bool.eq_false_iff.mp h
      have hleft := @rearrange_of_leaves m 1 _ _ StackOp.leaves_ifDup ![x] _ hstack
      rw [if_neg htop] at hleft
      exact hleft
    | pick x h => exact bringCounted_of_length BringUp.leaves_copy hstack h
    | roll x h => exact bringCounted_of_length BringUp.leaves_move hstack h

/-! ### Refusals -/

/-- An opcode fails where there are fewer items than it needs. -/
theorem exists_error_of_length_lt {n : Nat} (h : op.needed? = some n) (hlt : m.stack.length < n) :
  ∃ e m', execute op m = .error e m'
  := by
  have popped : ∀ {f : Item → Step Unit}, n = 1 → ∃ e m', (pop >>= f) m = .error e m' := by
    rintro f rfl
    have hempty := List.length_eq_zero_iff.mp (Nat.lt_one_iff.mp hlt)
    exact ⟨_, _, bind_of_error (pop_of_nil hempty) f⟩
  cases op <;> cases h <;> first
    | exact popped rfl
    | exact ⟨_, _, bind_of_error (need_of_lt hlt) _⟩
    | exact absurd hlt (Nat.not_lt_zero _)

/-- An opcode fails where it is said to refuse. -/
theorem exists_error_of_refuses (h : op.Refuses m) :
  ∃ e m', execute op m = .error e m'
  := by
  cases h with
  | tooFew h hlt => exact exists_error_of_length_lt h hlt
  | noItem h => exact ⟨_, _, fromAltStack_of_nil h⟩
  | notNumber hop hstack h =>
    obtain ⟨bring, hbring⟩ := exists_execute_eq_bringCounted hop
    rw [hbring]
    exact exists_error_of_not_isNumber hstack h
  | outOfRange hop hstack hcount h =>
    obtain ⟨bring, hbring⟩ := exists_execute_eq_bringCounted hop
    rw [hbring]
    exact exists_error_of_out_of_range hstack hcount h

/-- If a number is not refused, then it is that of the items above another one. -/
theorem exists_counted (hop : op = .pick ∨ op = .roll) (h : ¬ op.Refuses m) :
  ∃ (count x : Item) (above rest : List Item),
    m.stack = (x :: above ++ [count]).reverse ++ rest
      ∧ count.toInt m.limits.numberLength = .ok (above.length : Int)
  := by
  have hneeded : op.needed? = some 2 := by rcases hop with rfl | rfl <;> rfl
  have hlength : 2 ≤ m.stack.length := Nat.not_lt.mp fun hlt => h (.tooFew hneeded hlt)
  obtain ⟨count, below, hstack⟩ : ∃ count below, m.stack = count :: below :=
    List.exists_cons_of_length_pos (by omega)
  have hnumber : count.IsNumber m.limits.numberLength := by
    by_contra hnot
    exact h (.notNumber hop hstack hnot)
  obtain ⟨n, hcount⟩ := Item.exists_toInt_iff.mpr hnumber
  have hrange : ¬ (n < 0 ∨ (below.length : Int) ≤ n) := fun hout =>
    h (.outOfRange hop hstack hcount hout)
  obtain ⟨above, x, rest, rfl, rfl⟩ := (exists_above below n).resolve_left hrange
  refine ⟨count, x, above, rest, ?_, hcount⟩
  rw [hstack]
  simp

/-- Where an opcode does not refuse, it has an effect. -/
theorem exists_effect {n : Nat} (hop : op.needed? = some n) (h : ¬ op.Refuses m) :
  ∃ m', op.Effect m m'
  := by
  have hlength : n ≤ m.stack.length := Nat.not_lt.mp fun hlt => h (.tooFew hop hlt)
  obtain ⟨taken, rest, hstack⟩ := exists_taken hlength
  have moves : ∀ {left}, op.Moves m.limits.numberLength (List.ofFn taken) left →
      ∃ m', op.Effect m m' := fun hmoves => ⟨_, .moves hmoves hstack⟩
  cases op <;> cases hop
  case drop2 => exact moves (.drop2 (taken 0) (taken 1))
  case dup2 => exact moves (.dup2 (taken 0) (taken 1))
  case dup3 => exact moves (.dup3 (taken 0) (taken 1) (taken 2))
  case over2 => exact moves (.over2 (taken 0) (taken 1) (taken 2) (taken 3))
  case rot2 => exact moves (.rot2 (taken 0) (taken 1) (taken 2) (taken 3) (taken 4) (taken 5))
  case swap2 => exact moves (.swap2 (taken 0) (taken 1) (taken 2) (taken 3))
  case nip => exact moves (.nip (taken 0) (taken 1))
  case «over» => exact moves (.over (taken 0) (taken 1))
  case rot => exact moves (.rot (taken 0) (taken 1) (taken 2))
  case swap => exact moves (.swap (taken 0) (taken 1))
  case tuck => exact moves (.tuck (taken 0) (taken 1))
  case dup => exact moves (.dup (taken 0))
  case drop => exact moves (.drop (taken 0))
  case ifDup =>
    cases hx : (taken 0).toBool with
    | true => exact moves (.ifDup_true hx)
    | false => exact moves (.ifDup_false hx)
  case toAltStack => exact ⟨_, .toAltStack hstack⟩
  case fromAltStack =>
    cases halt : m.altStack with
    | nil => exact absurd (.noItem halt) h
    | cons item rest => exact ⟨_, .fromAltStack halt⟩
  case pick =>
    obtain ⟨count, x, above, rest, hstack, hcount⟩ := exists_counted (.inl rfl) h
    exact ⟨_, .moves (.pick x hcount) hstack⟩
  case roll =>
    obtain ⟨count, x, above, rest, hstack, hcount⟩ := exists_counted (.inr rfl) h
    exact ⟨_, .moves (.roll x hcount) hstack⟩

/-- An opcode that moves items has its effect, and no other outcome, unless it is refused. -/
theorem execute_iff_effect {n : Nat} (hop : op.needed? = some n) (m : Machine) :
  (∀ m', execute op m = .ok () m' ↔ op.Effect m m')
    ∧ ((∃ e m', execute op m = .error e m') ↔ op.Refuses m)
  := by
  have hrefused : (∃ e m', execute op m = .error e m') ↔ op.Refuses m := by
    constructor
    · rintro ⟨e, m', he⟩
      by_contra h
      obtain ⟨m'', heffect⟩ := exists_effect hop h
      cases he.symm.trans (execute_of_effect heffect)
    · exact exists_error_of_refuses
  refine ⟨fun m' => ⟨fun hm' => ?_, execute_of_effect⟩, hrefused⟩
  have h : ¬ op.Refuses m := by
    intro h
    obtain ⟨e, m'', he⟩ := hrefused.mpr h
    cases he.symm.trans hm'
  obtain ⟨m'', heffect⟩ := exists_effect hop h
  cases (execute_of_effect heffect).symm.trans hm'
  exact heffect

/-- The third item below the number is rolled to the top; there is no fourth one. -/
theorem execute_iff_effect_roll :
  let below : List Item := [.truth true, .number 5, .bytes [7]]
  let m : Machine := { Machine.initial with stack := .bytes [2] :: below }
  let short : Machine := { Machine.initial with stack := .bytes [3] :: below }
  Opcode.roll.needed? = some 2
    ∧ execute .roll m = .ok () { m with stack := [.bytes [7], .truth true, .number 5] }
    ∧ ∃ e m', execute .roll short = .error e m'
  := by
  intro below m short
  have hneeded : Opcode.roll.needed? = some 2 := rfl
  have hmoves : Opcode.roll.Moves 4 [.bytes [7], .number 5, .truth true, .bytes [2]]
      [.number 5, .truth true, .bytes [7]] :=
    @Opcode.Moves.roll 4 (.bytes [2]) (.bytes [7]) [.number 5, .truth true] rfl
  have hcount : (Item.bytes [3]).toInt 4 = .ok 3 := rfl
  refine ⟨hneeded, ((execute_iff_effect hneeded m).1 _).mpr ?_,
    (execute_iff_effect hneeded short).2.mpr ?_⟩
  · exact @Opcode.Effect.moves .roll m _ _ [] hmoves rfl
  · exact .outOfRange (.inr rfl) rfl hcount (.inr (by decide))

end Step

end Bitcoin
