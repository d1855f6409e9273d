import Bitcoin.Machine.Run
import Bitcoin.Proofs.Script.Failure

/-!
# Opcodes of the structure of scripts

Some opcodes stand for a part of the structure of scripts (`Opcode.isStructural`), and executing
them is an error of its own (`Error.isStructural`). Reading operands and checking signatures ends
with other errors only.
-/

namespace Bitcoin

/-- Whether an opcode stands for a part of the structure of scripts: it delimits a conditional, or
it introduces data. -/
def Opcode.isStructural (o : Opcode) : Bool :=
  o.isDelimiter || (PushKind.ofOpcode? o).isSome

/-- An opcode stands for a part of the structure if it is a delimiter or introduces data. -/
theorem Opcode.isStructural_eq_false_iff {o : Opcode} :
  o.isStructural = false ↔ o.isDelimiter = false ∧ PushKind.ofOpcode? o = none
  := by
  rw [isStructural, Bool.or_eq_false_iff, Option.isSome_eq_false_iff, Option.isNone_iff_eq_none]

/-- The opcodes of a program that are executed one by one, also those in conditionals. -/
def Program.opcodes : Program → List Opcode
  | .done => []
  | .push _ rest => rest.opcodes
  | .op o rest => o :: rest.opcodes
  | .branch _ body rest => body.opcodes ++ rest.opcodes
  | .branchElse _ body alternative rest =>
    body.opcodes ++ (alternative.opcodes ++ rest.opcodes)

/-- Such an opcode is never executed. -/
theorem Step.execute_of_isStructural {o : Opcode} (h : o.isStructural = true) :
  execute o = fail (.structuralOpcode o)
  := by
  cases o <;> first
    | cases h; done
    | rfl

/-- Whether an error says that an opcode of the structure of scripts was to be executed. -/
def Error.isStructural : Error → Bool
  | .execution (.structuralOpcode _) => true
  | _ => false

/-- No error in the form of something is about such an opcode. -/
theorem Error.Formal.isStructural_eq_false {e : Error} (h : e.Formal) :
  e.isStructural = false
  := by
  cases h <;> rfl

/-! ### Operands and signatures -/

/-- Nor is an error in reading a number. -/
theorem Item.isStructural_eq_false_of_toInt {item : Item} {limit : Nat} {e : Error}
    (h : item.toInt limit = .error e) :
  e.isStructural = false
  := by
  cases item with
  | bytes data =>
    rw [toInt, ScriptNumber.decode] at h
    split at h
    · cases h
      rfl
    · split at h
      · cases h
        rfl
      · cases h
  | number n =>
    rw [toInt] at h
    split at h
    · cases h
      rfl
    · cases h
  | truth b => cases h

theorem Transaction.isStructural_eq_false_of_checkInput {tx : Transaction} {index : Nat}
    {e : Error} (h : tx.checkInput index = .error e) :
  e.isStructural = false
  := by
  rw [checkInput] at h
  split at h
  · cases h
  · cases h
    rfl

/-- Nor is an error in computing a digest. -/
theorem Transaction.isStructural_eq_false_of_digest {tx : Transaction} {index : Nat}
    {hashType : HashType} {subScript : Script} {e : Error}
    (h : tx.digest index hashType subScript = .error e) :
  e.isStructural = false
  := by
  rcases bind_eq_error_iff.mp h with h | ⟨_, _, h⟩
  · apply isStructural_eq_false_of_checkInput h
  · split at h
    · cases h
    · rcases bind_eq_error_iff.mp h with h | ⟨stripped, _, h⟩
      · apply (Script.formal_of_removeOp h).isStructural_eq_false
      · rcases bind_eq_error_iff.mp h with h | ⟨_, _, ⟨⟩⟩
        rcases bind_eq_error_iff.mp h with h | ⟨_, _, ⟨⟩⟩
        apply isStructural_eq_false_of_checkInput h

namespace Spending

variable {spending : Spending} {subScript : Script} {e : Error}

/-- Nor is an error in checking a signature. -/
theorem isStructural_eq_false_of_checkSignature {signature key : Bytes}
    (h : spending.checkSignature subScript signature key = .error e) :
  e.isStructural = false
  := by
  rw [checkSignature.eq_def] at h
  split at h
  · cases h
  · split at h
    · rcases bind_eq_error_iff.mp h with h | ⟨_, _, ⟨⟩⟩
      apply Transaction.isStructural_eq_false_of_digest h
    · cases h

theorem isStructural_eq_false_of_countMatches {signatures keys : List Bytes}
    (h : spending.countMatches subScript signatures keys = .error e) :
  e.isStructural = false
  := by
  induction keys generalizing signatures with
  | nil => cases signatures <;> cases h
  | cons key keys ih =>
    cases signatures with
    | nil => cases h
    | cons signature signatures =>
      rw [countMatches] at h
      split at h
      · cases h
      · rcases bind_eq_error_iff.mp h with h | ⟨matched, _, h⟩
        · apply isStructural_eq_false_of_checkSignature h
        · split at h
          · rcases bind_eq_error_iff.mp h with h | ⟨_, _, ⟨⟩⟩
            apply ih h
          · apply ih h

end Spending

end Bitcoin
