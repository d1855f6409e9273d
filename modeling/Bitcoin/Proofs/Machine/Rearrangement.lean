import Bitcoin.Proofs.Machine.Step
import Mathlib.Data.List.OfFn
import Mathlib.Tactic.Use

/-!
# What rearrangements leave

A rearrangement finds its items by how far they are from the end of the stack. What it leaves of
them is said by itself, whatever lies below (`StackOp.Leaves`): most rearrangements put the items
of certain places one after the other (`StackOp.Arranges`), one looks at the truth value of its
item and one at its bytes.

What opcodes do with the stack has one of these shapes (`StackOp.Shape`). So at most three items
more are left, all of which were there before or are the size of one that was
(`StackOp.Shape.exists_leaves`).
-/

namespace Bitcoin

/-- The items from the bottom are those of the stack. -/
theorem Machine.size_items (m : Machine) :
  m.items.size = m.stack.length
  := by
  rw [items, List.size_toArray, List.length_reverse]

namespace StackOp

variable {n : Nat}

/-- Whether a rearrangement makes `left` of the items that it needs, of which the top one is
last, and leaves those below as they are. -/
def Leaves (op : StackOp n) (left : (Fin n → Item) → List Item) : Prop :=
  ∀ (below : List Item) (taken : Fin n → Item) (h : n ≤ (below ++ List.ofFn taken).toArray.size),
    op (below ++ List.ofFn taken).toArray h = (below ++ left taken).toArray

/-- Whether a rearrangement leaves the items of the given places, whatever they are. -/
abbrev Arranges (op : StackOp n) (places : List (Fin n)) : Prop :=
  op.Leaves fun taken => places.map taken

/-! ### The rearrangements -/

theorem arranges_drop2 :
  drop2.Arranges []
  := by
  intro below taken h
  simp [drop2]

theorem arranges_dup2 :
  dup2.Arranges [0, 1, 0, 1]
  := by
  intro below taken h
  simp [dup2]

theorem arranges_dup3 :
  dup3.Arranges [0, 1, 2, 0, 1, 2]
  := by
  intro below taken h
  simp [dup3]

theorem arranges_over2 :
  over2.Arranges [0, 1, 2, 3, 0, 1]
  := by
  intro below taken h
  simp [over2]

theorem arranges_rot2 :
  rot2.Arranges [2, 3, 4, 5, 0, 1]
  := by
  intro below taken h
  simp [rot2]

theorem arranges_swap2 :
  swap2.Arranges [2, 3, 0, 1]
  := by
  intro below taken h
  simp [swap2]

theorem arranges_dup :
  dup.Arranges [0, 0]
  := by
  intro below taken h
  simp [dup]

theorem arranges_nip :
  nip.Arranges [1]
  := by
  intro below taken h
  simp [nip, List.eraseIdx_append_of_length_le]

theorem arranges_dupSecond :
  dupSecond.Arranges [0, 1, 0]
  := by
  intro below taken h
  simp [dupSecond]

theorem arranges_rot :
  rot.Arranges [1, 2, 0]
  := by
  intro below taken h
  simp [rot, List.eraseIdx_append_of_length_le]

theorem arranges_swap :
  swap.Arranges [1, 0]
  := by
  intro below taken h
  simp [swap]

theorem arranges_tuck :
  tuck.Arranges [1, 0, 1]
  := by
  intro below taken h
  have hinsert : (below ++ [taken 0, taken 1]).insertIdx below.length (taken 1)
      = below ++ [taken 1, taken 0, taken 1] :=
    List.modifyTailIdx_add (List.cons (taken 1)) 0 below [taken 0, taken 1]
  simpa [tuck] using hinsert

/-- The item is doubled if it is true. -/
theorem leaves_ifDup :
  ifDup.Leaves fun taken => if (taken 0).toBool then [taken 0, taken 0] else [taken 0]
  := by
  intro below taken h
  cases htop : (taken 0).toBool <;> simp [ifDup, htop]

/-- The length of the item is put on top of it. -/
theorem leaves_size :
  size.Leaves fun taken => [taken 0, .number ((taken 0).toBytes.length : Int)]
  := by
  intro below taken h
  simp [size]

/-! ### Their shapes -/

/-- The shapes of rearrangements. -/
inductive Shape : {n : Nat} → StackOp n → Prop where
  | arranges {n : Nat} {op : StackOp n} (places : List (Fin n)) (h : op.Arranges places)
      (hlength : places.length ≤ n + 3) : Shape op
  | ifDup : Shape ifDup
  | size : Shape size

attribute [simp] Shape.ifDup Shape.size

@[simp]
theorem shape_drop2 :
  Shape drop2
  := .arranges _ arranges_drop2 (by decide)

@[simp]
theorem shape_dup2 :
  Shape dup2
  := .arranges _ arranges_dup2 (by decide)

@[simp]
theorem shape_dup3 :
  Shape dup3
  := .arranges _ arranges_dup3 (by decide)

@[simp]
theorem shape_over2 :
  Shape over2
  := .arranges _ arranges_over2 (by decide)

@[simp]
theorem shape_rot2 :
  Shape rot2
  := .arranges _ arranges_rot2 (by decide)

@[simp]
theorem shape_swap2 :
  Shape swap2
  := .arranges _ arranges_swap2 (by decide)

@[simp]
theorem shape_dup :
  Shape dup
  := .arranges _ arranges_dup (by decide)

@[simp]
theorem shape_nip :
  Shape nip
  := .arranges _ arranges_nip (by decide)

@[simp]
theorem shape_dupSecond :
  Shape dupSecond
  := .arranges _ arranges_dupSecond (by decide)

@[simp]
theorem shape_rot :
  Shape rot
  := .arranges _ arranges_rot (by decide)

@[simp]
theorem shape_swap :
  Shape swap
  := .arranges _ arranges_swap (by decide)

@[simp]
theorem shape_tuck :
  Shape tuck
  := .arranges _ arranges_tuck (by decide)


/-- At most three items more are left, and each was there or is the size of one that was. -/
theorem Shape.exists_leaves {op : StackOp n} (hop : op.Shape) :
  ∃ left, op.Leaves left ∧ ∀ taken, (left taken).length ≤ n + 3
    ∧ ∀ item ∈ left taken, ∃ i, item = taken i ∨ item = .number ((taken i).toBytes.length : Int)
  := by
  cases hop with
  | arranges places h hlength =>
    refine ⟨_, h, fun taken => ⟨(List.length_map taken).trans_le hlength, fun item hitem => ?_⟩⟩
    obtain ⟨i, _, rfl⟩ := List.mem_map.mp hitem
    exact ⟨i, .inl rfl⟩
  | ifDup =>
    refine ⟨_, leaves_ifDup, fun taken => ?_⟩
    split
    · exact ⟨by simp, fun item hitem => ⟨0, .inl (by simpa using hitem)⟩⟩
    · exact ⟨by simp, fun item hitem => ⟨0, .inl (by simpa using hitem)⟩⟩
  | size =>
    exact ⟨_, leaves_size, fun taken => ⟨by simp, fun item hitem => ⟨0, by simpa using hitem⟩⟩⟩

end StackOp

namespace BringUp

/-- Whether a rearrangement makes `left` of the item at the position and of those above it, of which
the top one is last, and leaves those below as they are. -/
def Leaves (bring : BringUp) (left : Item → List Item → List Item) : Prop :=
  ∀ (below : List Item) (x : Item) (above : List Item)
    (h : below.length < (below ++ x :: above).toArray.size),
    bring (below ++ x :: above).toArray below.length h = (below ++ left x above).toArray

/-- A copy leaves the item in its place. -/
theorem leaves_copy :
  copy.Leaves fun x above => x :: above ++ [x]
  := by
  intro below x above h
  simp [copy]

/-- A move closes the gap. -/
theorem leaves_move :
  move.Leaves fun x above => above ++ [x]
  := by
  intro below x above h
  simp [move, List.eraseIdx_append_of_length_le]

end BringUp

namespace Step

variable {m : Machine}

section Rearrange

variable {n : Nat} {op : StackOp n}

/-- The items that are needed are on top of the others. -/
theorem exists_taken {stack : List Item} (h : n ≤ stack.length) :
  ∃ (taken : Fin n → Item) (rest : List Item), stack = (List.ofFn taken).reverse ++ rest
  := by
  obtain ⟨taken, htaken⟩ : ∃ taken : Fin n → Item, List.ofFn taken = (stack.take n).reverse := by
    have hlength : (stack.take n).reverse.length = n := by
      rw [List.length_reverse, List.length_take, Nat.min_eq_left h]
    exact ⟨_, (List.ofFn_congr hlength _).symm.trans (List.ofFn_get _)⟩
  use taken, stack.drop n
  rw [htaken, List.reverse_reverse, List.take_append_drop]

/-- A rearrangement is made of the items that are on top, and what lies below stays. -/
theorem rearrange_of_leaves {left : (Fin n → Item) → List Item} (hop : op.Leaves left)
    {taken : Fin n → Item} {rest : List Item}
    (hstack : m.stack = (List.ofFn taken).reverse ++ rest) :
  rearrange n op m = .ok () { m with stack := (left taken).reverse ++ rest }
  := by
  have hitems : m.items = (rest.reverse ++ List.ofFn taken).toArray := by
    rw [Machine.items, hstack, List.reverse_append, List.reverse_reverse]
  have hlength : n ≤ m.stack.length := by
    rw [hstack, List.length_append, List.length_reverse, List.length_ofFn]
    apply Nat.le_add_right
  have hsize : n ≤ m.items.size := by rwa [m.size_items]
  have hleft : op m.items hsize = (rest.reverse ++ left taken).toArray := by
    simp only [hitems]
    apply hop
  rw [rearrange, bind_of_ok (need_of_le hlength)]
  change EStateM.Result.ok () (if h : n ≤ m.items.size then m.withItems (op m.items h) else m) = _
  rw [dif_pos hsize, hleft, Machine.withItems, List.reverse_append, List.reverse_reverse]

/-- No rearrangement is made of fewer items than it needs. -/
theorem rearrange_of_lt (h : m.stack.length < n) :
  rearrange n op m = .error (.execution (.tooFewOperands n)) m
  := bind_of_error (need_of_lt h) _

end Rearrange

section BringUp

variable {op : Opcode} {bring : BringUp}

/-- A number tells how many items are above another one, or it tells none. -/
theorem exists_above (stack : List Item) (n : Int) :
  (n < 0 ∨ (stack.length : Int) ≤ n)
    ∨ ∃ (above : List Item) (x : Item) (rest : List Item),
      stack = above.reverse ++ x :: rest ∧ n = above.length
  := by
  by_cases h : 0 ≤ n ∧ n.toNat < stack.length
  · right
    obtain ⟨hpos, hlt⟩ := h
    refine ⟨(stack.take n.toNat).reverse, stack[n.toNat], stack.drop (n.toNat + 1), ?_, ?_⟩
    · rw [List.reverse_reverse, ← List.drop_eq_getElem_cons hlt, List.take_append_drop]
    · rw [List.length_reverse, List.length_take, Nat.min_eq_left (Nat.le_of_lt hlt),
        Int.toNat_of_nonneg hpos]
  · left
    omega

/-- The item below so many others is brought up. -/
theorem bringUp_of_above {left : Item → List Item → List Item} (hbring : bring.Leaves left)
    {above : List Item} {x : Item} {rest : List Item}
    (hstack : m.stack = above.reverse ++ x :: rest) :
  bringUp op bring above.length m = .ok () { m with stack := (left x above).reverse ++ rest }
  := by
  have hitems : m.items = (rest.reverse ++ x :: above).toArray := by
    rw [Machine.items, hstack]
    simp
  have hsize : m.items.size = rest.length + 1 + above.length := by
    rw [m.size_items, hstack, List.length_append, List.length_reverse, List.length_cons,
      Nat.add_comm]
  have hposition : m.items.size - 1 - (above.length : Int).toNat = rest.reverse.length := by
    rw [hsize, List.length_reverse]
    omega
  have hleft : ∀ {items : Array Item} {position : Nat} (h : position < items.size),
      items = (rest.reverse ++ x :: above).toArray → position = rest.reverse.length →
        bring items position h = (rest.reverse ++ left x above).toArray := by
    rintro _ _ h rfl rfl
    apply hbring
  change (dite _ _ _ : Step Unit) m = _
  rw [dif_pos (by omega), hleft _ hitems hposition, Machine.withItems, List.reverse_append,
    List.reverse_reverse]
  rfl

/-- There is no item below the top that is so far away. -/
theorem bringUp_of_outside {n : Int} (h : n < 0 ∨ (m.stack.length : Int) ≤ n) :
  bringUp op bring n m = .error (.execution (.itemOutOfRange op n)) m
  := by
  have hsize := m.size_items
  change (dite _ _ _ : Step Unit) m = _
  rw [dif_neg (by omega)]
  rfl

end BringUp

end Step

end Bitcoin
