import Bitcoin.Proofs.Machine.Frames
import Bitcoin.Proofs.Script.Multisig
import Mathlib.Tactic.IntervalCases

/-!
# Running scripts without conditionals

A program without conditionals is run one element after the other. Tokens that only push
(`Token.Pushes`) put their items on the stack, the last one on top, if and only if there is room
(`Step.run_flat_constants`, `Step.room_of_run_flat_constants`).
-/

namespace Bitcoin

/-- A number that fits into a word is read back from it. -/
theorem Item.toInt_number {n : Int} (hn : n.natAbs < 2 ^ 63) {limit : Nat}
    (hlength : (ScriptNumber.encode n).length ≤ limit) :
  (Item.number n).toInt limit = .ok n
  := by
  have hword : (Int64.ofInt n).toInt = n := Int64.toInt_ofInt_of_le (by omega) (by omega)
  rw [toInt, hword, if_neg (Nat.not_lt.mpr hlength)]

/-- All that the token does is to put the item on the stack. -/
inductive Token.Pushes : Token → Item → Prop where
  /-- A push does so with its data. -/
  | data (p : Push) : Pushes (.push p) (.bytes p.data)
  /-- So do some opcodes, each with an item of its own. -/
  | constant {o : Opcode} {item : Item} : Step.execute o = Step.push item → Pushes (.op o) item

namespace Step

variable {m m' : Machine} {depth : Nat} {rest ts : List Token} {items : List Item}

/-- A script that is already taken apart is run by its program. -/
theorem runScript_eq_run {script : Script} {program : Program} (hm : m.stopped = false)
    (h : script.program = .ok program) :
  runScript script m = program.run 1 m
  := by
  rw [runScript_eq_unlessStopped h, unlessStopped_of_running _ hm]

theorem run_flat_nil (depth : Nat) (m : Machine) :
  (Program.flat []).run depth m = .ok () m
  := rfl

/-- An opcode that leaves the machine running is followed by the rest. -/
theorem run_flat_op {op : Opcode} (hsize : m.size ≤ m.limits.stackSize)
    (hop : execute op m = .ok () m') (hm' : m'.stopped = false) :
  (Program.flat (.op op :: rest)).run depth m = (Program.flat rest).run depth m'
  := by
  have helement : element (execute op) m = .ok () m' := by
    rw [element, bind_of_ok (checkSize_of_le hsize), hop]
  rw [Program.flat, Program.run, bind_of_ok helement, unlessStopped_of_running _ hm']

/-- An opcode that ends with an error ends the script. -/
theorem run_flat_op_error {op : Opcode} {e : Error} (hsize : m.size ≤ m.limits.stackSize)
    (hop : execute op m = .error e m') :
  (Program.flat (.op op :: rest)).run depth m = .error e m'
  := by
  have helement : element (execute op) m = .error e m' := by
    rw [element, bind_of_ok (checkSize_of_le hsize), hop]
  rw [Program.flat, Program.run, bind_of_error helement]

/-- A token that only pushes is executed if there is room. -/
theorem run_flat_constant {t : Token} {item : Item} (ht : t.Pushes item) (hm : m.stopped = false)
    (hsize : m.size ≤ m.limits.stackSize) :
  (Program.flat (t :: rest)).run depth m
    = (Program.flat rest).run depth { m with stack := item :: m.stack }
  := by
  let m₁ : Machine := { m with stack := item :: m.stack }
  have hm₁ : m₁.stopped = false := hm
  have helement : element (push item) m = .ok () m₁ := by
    rw [element, bind_of_ok (checkSize_of_le hsize)]
    rfl
  cases ht with
  | data p => rw [Program.flat, Program.run, bind_of_ok helement, unlessStopped_of_running _ hm₁]
  | constant ho =>
    rw [Program.flat, Program.run, ho, bind_of_ok helement, unlessStopped_of_running _ hm₁]

/-- Tokens that only push are executed as long as there is room. -/
theorem run_flat_constants (hts : List.Forall₂ Token.Pushes ts items) (hm : m.stopped = false)
    (hsize : ts.length + m.size ≤ m.limits.stackSize + 1) :
  (Program.flat (ts ++ rest)).run depth m
    = (Program.flat rest).run depth { m with stack := items.reverse ++ m.stack }
  := by
  induction hts generalizing m with
  | nil => rfl
  | @cons t item ts items ht _ ih =>
    let m₁ : Machine := { m with stack := item :: m.stack }
    have hm₁ : m₁.stopped = false := hm
    have hgrown : m₁.size = m.size + 1 := Nat.succ_add _ _
    have hlimits : m₁.limits = m.limits := rfl
    rw [List.length_cons] at hsize
    rw [List.cons_append, run_flat_constant ht hm (by omega), ih hm₁ (by rw [hlimits]; omega),
      List.reverse_cons, List.append_assoc]
    rfl

/-- There is room for a token that was executed. -/
theorem size_le_of_run_flat {t : Token}
    (h : (Program.flat (t :: rest)).run depth m = .ok () m') :
  m.size ≤ m.limits.stackSize
  := by
  by_contra hsize
  have hfull := checkSize_of_lt (Nat.lt_of_not_le hsize)
  have helement : ∀ body, element body m = .error (.execution (.tooManyItems m.size)) m :=
    fun body => bind_of_error hfull _
  cases t with
  | op o =>
    rw [Program.flat, Program.run, bind_of_error (helement _)] at h
    cases h
  | push p =>
    rw [Program.flat, Program.run, bind_of_error (helement _)] at h
    cases h

/-- There was room for tokens that only push, if another token was executed after them. -/
theorem room_of_run_flat_constants {t : Token} (hts : List.Forall₂ Token.Pushes ts items)
    (hm : m.stopped = false) (h : (Program.flat (ts ++ t :: rest)).run depth m = .ok () m') :
  ts.length + m.size ≤ m.limits.stackSize
  := by
  induction hts generalizing m with
  | nil =>
    rw [List.length_nil, Nat.zero_add]
    apply size_le_of_run_flat h
  | @cons t' item ts items ht _ ih =>
    let m₁ : Machine := { m with stack := item :: m.stack }
    have hm₁ : m₁.stopped = false := hm
    have hgrown : m₁.size = m.size + 1 := Nat.succ_add _ _
    rw [List.cons_append] at h
    rw [run_flat_constant ht hm (size_le_of_run_flat h)] at h
    have hroom : ts.length + m₁.size ≤ m.limits.stackSize := ih hm₁ h
    rw [List.length_cons]
    omega

/-- The machine with data on its stack, the last on top. -/
def pushed (m : Machine) (datas : List Bytes) : Machine :=
  { m with stack := datas.reverse.map .bytes ++ m.stack }

/-- Pushes put their data on the stack. -/
theorem forall₂_pushes (pushes : List Push) :
  List.Forall₂ Token.Pushes (pushes.map .push) (pushes.map fun p => .bytes p.data)
  := by
  rw [List.forall₂_map_left_iff, List.forall₂_map_right_iff, List.forall₂_same]
  exact fun p _ => .data p

/-- Pushes put their data on the stack. -/
theorem run_flat_pushes (pushes : List Push) (hm : m.stopped = false)
    (hsize : pushes.length + m.size ≤ m.limits.stackSize + 1) :
  (Program.flat (pushes.map .push ++ rest)).run depth m
    = (Program.flat rest).run depth (pushed m (pushes.map Push.data))
  := by
  rw [run_flat_constants (forall₂_pushes pushes) hm (by rwa [List.length_map])]
  simp only [pushed, List.map_reverse, List.map_map]
  rfl

/-- The opcodes for small numbers push them. -/
theorem pushes_countOpcode {n : Nat} (hpos : 1 ≤ n) (hle : n ≤ 16) :
  (Token.op (Script.countOpcode n)).Pushes (.number (n : Int))
  := by
  apply Token.Pushes.constant
  interval_cases n <;> rfl

end Step

end Bitcoin
