import Bitcoin.Proofs.Bytes
import Bitcoin.Script.PushKind
import Mathlib.Data.List.Nodup
import Mathlib.Tactic.SplitIfs

/-!
# Mnemonics

An opcode has its name as a mnemonic, and three opcodes have a second one (`Opcode.mnemonics`). All
of these are different, and so a mnemonic tells the opcode (`Opcode.ofName?_eq_some_iff`).
-/

namespace Bitcoin

theorem Opcode.mem_all (o : Opcode) :
  o ∈ all
  := by
  cases o <;> decide

/-- The mnemonics, with the second ones of three opcodes, are different. -/
theorem Opcode.nodup_names :
  ("OP_FALSE" :: "OP_TRUE" :: "OP_NOP2" :: all.map name).Nodup
  := by
  -- Texts are compared as the numbers that their bytes denote, which is faster.
  apply List.Nodup.of_map fun text : String => Bytes.toNatBE text.toByteArray.data.toList
  decide +kernel

/-- An opcode is found by its name. -/
theorem Opcode.ofName?_name (o : Opcode) :
  ofName? o.name = some o
  := by
  obtain ⟨hfalse, hrest⟩ := List.nodup_cons.mp nodup_names
  obtain ⟨htrue, hrest⟩ := List.nodup_cons.mp hrest
  obtain ⟨hnop2, hnames⟩ := List.nodup_cons.mp hrest
  have hname : o.name ∈ all.map name := List.mem_map_of_mem o.mem_all
  have hne : ∀ text : String, text ∉ all.map name → ¬ o.name = text := by
    rintro _ h rfl
    apply h hname
  have hfalse' : "OP_FALSE" ∉ all.map name := fun h => hfalse (by simp [h])
  have htrue' : "OP_TRUE" ∉ all.map name := fun h => htrue (by simp [h])
  rw [ofName?, if_neg (hne _ hfalse'), if_neg (hne _ htrue'), if_neg (hne _ hnop2)]
  cases hfound : all.find? (·.name = o.name) with
  | none =>
    have hnone := List.find?_eq_none.mp hfound o o.mem_all
    simp at hnone
  | some o' =>
    have hsame : o'.name = o.name := by simpa using List.find?_some hfound
    rw [List.inj_on_of_nodup_map hnames o'.mem_all o.mem_all hsame]

/-- All names begin with the same letter. -/
theorem Opcode.exists_toList_name (o : Opcode) :
  ∃ rest, o.name.toList = 'O' :: rest
  := by
  cases o <;> exact ⟨_, rfl⟩

/-- The second mnemonic of an opcode, which three opcodes have. -/
def Opcode.aliases : Opcode → List String
  | .zero => ["OP_FALSE"]
  | .one => ["OP_TRUE"]
  | .checkLockTimeVerify => ["OP_NOP2"]
  | _ => []

/-- The mnemonics of an opcode. -/
def Opcode.mnemonics (o : Opcode) : List String :=
  o.name :: o.aliases

/-- An opcode is found by its mnemonics alone. -/
theorem Opcode.ofName?_eq_some_iff {word : String} {o : Opcode} :
  ofName? word = some o ↔ word ∈ o.mnemonics
  := by
  constructor
  · intro h
    rw [ofName?] at h
    split_ifs at h with hfalse htrue hnop2
    · cases h
      simp [mnemonics, aliases, hfalse]
    · cases h
      simp [mnemonics, aliases, htrue]
    · cases h
      simp [mnemonics, aliases, hnop2]
    · have hname : o.name = word := by simpa using List.find?_some h
      rw [mnemonics, hname]
      apply List.mem_cons_self
  · intro h
    rcases List.mem_cons.mp h with rfl | halias
    · apply ofName?_name
    · cases o
      case zero | one | checkLockTimeVerify =>
        rw [List.mem_singleton.mp halias]
        rfl
      all_goals cases halias

theorem Opcode.ofList_toList_name_mem (o : Opcode) :
  String.ofList o.name.toList ∈ o.mnemonics
  := by
  rw [String.ofList_toList]
  apply List.mem_cons_self

theorem Opcode.exists_toList_of_mem_mnemonics {word : String} {o : Opcode}
    (h : word ∈ o.mnemonics) :
  ∃ rest, word.toList = 'O' :: rest
  := by
  rcases List.mem_cons.mp h with rfl | halias
  · apply exists_toList_name
  · cases o
    case zero | one | checkLockTimeVerify =>
      rw [List.mem_singleton.mp halias]
      exact ⟨_, rfl⟩
    all_goals cases halias

/-- An opcode that introduces data has one mnemonic. -/
theorem PushKind.eq_name_of_mem_mnemonics {kind : PushKind} {o : Opcode} {word : String}
    (h : kind.opcode? = some o) (hword : word ∈ o.mnemonics) :
  word = o.name
  := by
  cases kind <;> cases h <;> exact List.mem_singleton.mp hword

end Bitcoin
