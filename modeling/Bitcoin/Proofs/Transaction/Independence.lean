import Bitcoin.Proofs.Machine.Alike
import Bitcoin.Proofs.Transaction.Cosigning

/-!
# Inputs are independent

Whether an input spends an output does not depend on the scripts that unlock the other inputs
(`Transaction.verify_withScript`), and neither does the script that signing the input gives it
(`Transaction.signedScript_withScript`). Attempts to sign two inputs (`Transaction.Attempt`)
therefore commute, and neither of them changes the verdict on the other input.
-/

namespace Bitcoin

/-! ### Spending -/

namespace Step.Alike

theorem saveStack :
  Alike Eq saveStack saveStack
  := modify fun _ _ hm => { hm with savedStack := .some hm.stack }

theorem restoreStack :
  Alike Eq restoreStack restoreStack
  := by
  intro m m' hm
  have hsaved := hm.savedStack
  rw [Step.restoreStack, Step.restoreStack]
  generalize m.savedStack = s?, m'.savedStack = s?' at hsaved
  cases hsaved with
  | none => exact .error hm
  | some hstack => exact .ok rfl { hm with stack := hstack, savedStack := .none }

theorem isValid :
  Alike Eq isValid isValid
  := by
  apply get_bind
  intro m m' hm
  apply pure hm.valid m m' hm

theorem revealScript :
  Alike Eq revealScript revealScript
  := by
  apply restoreStack.bind_eq
  intro _
  apply pop.bind
  intro item item' hitem
  rw [hitem]
  apply bind_eq
  · exact modify fun _ _ hm => { hm with subScript? := rfl }
  · exact fun _ => pure rfl

theorem runPartially (redeem : Script) (present : Nat) :
  Alike Eq (runPartially redeem present) (runPartially redeem present)
  := by
  apply bind_eq
  · exact modify fun _ _ hm => { hm with partialMultisig := rfl }
  · intro _
    apply (runScript redeem).bind_eq
    intro _
    apply get_bind
    intro m m' hm
    rw [hm.matchCount]
    apply pure rfl m m' hm

theorem runFully (redeem : Script) :
  Alike Eq (runFully redeem) (runFully redeem)
  := (runScript redeem).bind_eq fun _ => isValid

/-- Spending sees of the machine what alike machines agree in. -/
theorem spend (inputScript outputScript : Script) (partially : Bool) :
  Alike Eq (spend inputScript outputScript partially) (spend inputScript outputScript partially)
  := by
  apply (runScript inputScript).bind_eq
  intro _
  apply ite Iff.rfl
  · apply saveStack.bind_eq
    intro _
    apply (runScript outputScript).bind_eq
    intro _
    apply isValid.bind_eq
    intro hashMatches
    apply revealScript.bind_eq
    intro redeem
    dsimp only
    cases inputScript.multisigSignatures? with
    | none => exact (runFully _).bind_eq fun _ => pure rfl
    | some found =>
      apply ite Iff.rfl
      · exact (runPartially _ _).bind_eq fun _ => pure rfl
      · exact (runFully _).bind_eq fun _ => pure rfl
  · exact (runScript outputScript).bind_eq fun _ => isValid

end Step.Alike

namespace Transaction

variable {i j : Nat}

/-! ### Scripts of other inputs -/

theorem getElem?_withScript_of_ne (hij : i ≠ j) (tx : Transaction) (script : Script) :
  (tx.withScript j script).inputs[i]? = tx.inputs[i]?
  := List.getElem?_modify_ne _ _ hij.symm

theorem length_inputs_withScript (tx : Transaction) (script : Script) :
  (tx.withScript j script).inputs.length = tx.inputs.length
  := List.length_modify _ _ _

theorem checkInput_withScript (tx : Transaction) (script : Script) :
  (tx.withScript j script).checkInput i = tx.checkInput i
  := by
  rw [checkInput, checkInput, length_inputs_withScript]

/-- The scripts of different inputs may be put in place in any order. -/
theorem withScript_comm (hij : i ≠ j) (tx : Transaction) (script script' : Script) :
  (tx.withScript i script).withScript j script' = (tx.withScript j script').withScript i script
  := by
  rw [withScript, withScript, withScript, withScript]
  congr 1
  apply List.modify_modify_ne _ _ _ hij

/-! ### Verdicts -/

/-- The machines for an input are alike whatever scripts unlock the inputs. -/
theorem alike_forInput {tx tx' : Transaction} (htx : tx.withoutScripts = tx'.withoutScripts)
    (hi : i < tx.inputs.length) (hi' : i < tx'.inputs.length) (subScript : Script) :
  Machine.Alike
    { Machine.initial with spending? := some ⟨tx, i, hi⟩, subScript? := some subScript }
    { Machine.initial with spending? := some ⟨tx', i, hi'⟩, subScript? := some subScript }
  where
  regular := Limits.regular_standard
  limits := rfl
  stack := .nil
  altStack := .nil
  savedStack := .none
  stopped := rfl
  spending? := .some ⟨rfl, htx⟩
  subScript? := rfl
  partialMultisig := rfl
  matchCount := rfl

/-- Executions with the same end have the same verdict. -/
theorem verdict_of_sameEnd {r r' : EStateM.Result Error Machine Bool} (h : Step.SameEnd Eq r r') :
  verdict r = verdict r'
  := by
  cases h with
  | ok hvalid _ => rw [hvalid]; rfl
  | error _ => rfl

/-- Whether an input spends an output does not depend on the scripts of the other inputs. -/
theorem verify_withScript (hij : i ≠ j) (tx : Transaction) (script outputScript : Script)
    (partially : Bool) :
  (tx.withScript j script).verify i outputScript partially = tx.verify i outputScript partially
  := by
  by_cases hi : i < tx.inputs.length
  · have hi' : i < (tx.withScript j script).inputs.length := by
      rwa [length_inputs_withScript]
    have hinput := List.getElem?_eq_getElem hi
    have hinput' := (getElem?_withScript_of_ne hij tx script).trans hinput
    have halike := alike_forInput (withoutScripts_withScript tx j script) hi' hi outputScript
    rw [verify_eq_verdict hinput (dif_pos hi), verify_eq_verdict hinput' (dif_pos hi')]
    apply verdict_of_sameEnd
    apply Step.Alike.spend _ _ _ _ _ halike
  · rw [verify, verify, checkInput_withScript, checkInput, if_neg hi]
    rfl

/-! ### Signing -/

/-- The script that signing gives to an input does not depend on the scripts of the other
inputs. -/
theorem signedScript_withScript (hij : i ≠ j) (tx : Transaction) (script : Script)
    (hashType : HashType) (key : PrivateKey) (subScript : Script) :
  (tx.withScript j script).signedScript i hashType key subScript
    = tx.signedScript i hashType key subScript
  := by
  rw [signedScript, signedScript]
  simp only [signatureFor, digest_withScript, checkInput_withScript,
    getElem?_withScript_of_ne hij]

/-- An attempt to sign an input. -/
structure Attempt where
  /-- The input. -/
  index : Nat
  hashType : HashType
  key : PrivateKey
  /-- The script that the input is signed for. -/
  subScript : Script

namespace Attempt

/-- The script that the attempt gives the input, or why the input cannot be signed. -/
def script (a : Attempt) (tx : Transaction) : Except Error Script :=
  tx.signedScript a.index a.hashType a.key a.subScript

/-- The transaction with the input signed, or why the input cannot be signed. -/
def result (a : Attempt) (tx : Transaction) : Except Error Transaction :=
  tx.signInput a.index a.hashType a.key a.subScript

/-- Whether the attempt succeeds, or why it does not. -/
def outcome (a : Attempt) (tx : Transaction) : Except Error Unit :=
  (a.result tx).map fun _ => ()

/-- The transaction after the attempt. An attempt that fails leaves it as it is. -/
def final (a : Attempt) (tx : Transaction) : Transaction :=
  (a.result tx).toOption.getD tx

variable {a b : Attempt} {tx : Transaction}

theorem outcome_eq (a : Attempt) (tx : Transaction) :
  a.outcome tx = (a.script tx).map fun _ => ()
  := by
  rw [outcome, result, signInput, ← script]
  cases a.script tx <;> rfl

theorem final_of_error {e : Error} (h : a.script tx = .error e) :
  a.final tx = tx
  := by
  rw [final, result, signInput, ← script, h]
  rfl

theorem final_of_ok {signed : Script} (h : a.script tx = .ok signed) :
  a.final tx = tx.withScript a.index signed
  := by
  rw [final, result, signInput, ← script, h]
  rfl

/-- An attempt leaves a transaction as it is or gives the input a script. -/
theorem final_cases (a : Attempt) (tx : Transaction) :
  a.final tx = tx ∨ ∃ signed, a.final tx = tx.withScript a.index signed
  := by
  cases h : a.script tx with
  | error e => exact .inl (final_of_error h)
  | ok signed => exact .inr ⟨signed, final_of_ok h⟩

/-- An attempt gives an input the same script after an attempt to sign another input. -/
theorem script_final (hab : a.index ≠ b.index) :
  a.script (b.final tx) = a.script tx
  := by
  rcases b.final_cases tx with h | ⟨signed, h⟩
  · rw [h]
  · rw [h]
    apply signedScript_withScript hab

/-- Whether an input is signed does not depend on what was done to another one. -/
theorem outcome_final (hab : a.index ≠ b.index) :
  a.outcome (b.final tx) = a.outcome tx
  := by
  rw [outcome_eq, outcome_eq, script_final hab]

/-- Attempts to sign two inputs commute. -/
theorem final_comm (hab : a.index ≠ b.index) :
  b.final (a.final tx) = a.final (b.final tx)
  := by
  have ha : a.script (b.final tx) = a.script tx := script_final hab
  have hb : b.script (a.final tx) = b.script tx := script_final hab.symm
  cases hsa : a.script tx with
  | error e => rw [final_of_error hsa, final_of_error (ha.trans hsa)]
  | ok signed =>
    cases hsb : b.script tx with
    | error e => rw [final_of_error hsb, final_of_error (hb.trans hsb)]
    | ok signed' =>
      rw [final_of_ok (hb.trans hsb), final_of_ok (ha.trans hsa), final_of_ok hsa,
        final_of_ok hsb, withScript_comm hab]

end Attempt

/-! ### Independence -/

/-- Inputs are independent: the verdict on an input does not depend on the script that unlocks
another one, hence no attempt to sign the other changes it, and attempts to sign the two
commute, in that each comes out the same and both together leave the same transaction. -/
theorem inputs_independent {i j : Nat} (hij : i ≠ j) (tx : Transaction) :
  (∀ script outputScript : Script,
      (tx.withScript j script).verifyInput i outputScript = tx.verifyInput i outputScript
      ∧ (tx.withScript j script).verifyPartially i outputScript
        = tx.verifyPartially i outputScript)
    ∧ (∀ b : Attempt, b.index = j → ∀ outputScript : Script,
      (b.final tx).verifyInput i outputScript = tx.verifyInput i outputScript
      ∧ (b.final tx).verifyPartially i outputScript = tx.verifyPartially i outputScript)
    ∧ (∀ a b : Attempt, a.index = i → b.index = j →
      a.outcome (b.final tx) = a.outcome tx ∧ b.outcome (a.final tx) = b.outcome tx
      ∧ b.final (a.final tx) = a.final (b.final tx))
  := by
  have hverdict : ∀ script outputScript : Script,
      (tx.withScript j script).verifyInput i outputScript = tx.verifyInput i outputScript
      ∧ (tx.withScript j script).verifyPartially i outputScript
        = tx.verifyPartially i outputScript := by
    intro script outputScript
    rw [verifyInput, verifyInput, verifyPartially, verifyPartially]
    rw [verify_withScript hij, verify_withScript hij]
    exact ⟨rfl, rfl⟩
  refine ⟨hverdict, ?_, ?_⟩
  · rintro b rfl outputScript
    rcases b.final_cases tx with h | ⟨script, h⟩
    · rw [h]
      exact ⟨rfl, rfl⟩
    · rw [h]
      apply hverdict
  · rintro a b rfl rfl
    exact ⟨Attempt.outcome_final hij, Attempt.outcome_final hij.symm, Attempt.final_comm hij⟩

/-- Both inputs of a transaction without outputs are signed, in either order, and an output that
anyone can spend stays spent by the first. -/
theorem inputs_independent_withoutOutputs :
  let input : Input := ⟨⟨FixedBytes.zero 32, 0⟩, .empty, 0⟩
  let tx : Transaction := ⟨1, [input, input], [], 0⟩
  let redeem : MultisigRedeem := ⟨1, [keyOne.publicKey.toBytes true]⟩
  let first : Attempt := ⟨0, 3, keyOne, demandScript redeem⟩
  let second : Attempt := ⟨1, 3, keyOne, demandScript redeem⟩
  first.outcome (second.final tx) = .ok () ∧ second.outcome (first.final tx) = .ok ()
    ∧ second.final (first.final tx) = first.final (second.final tx)
    ∧ (second.final tx).verifyInput 0 (.encoded [0x51]) = true
  := by
  intro input tx redeem first second
  have hvalid : redeem.Valid := @valid_publicKeys 1 [keyOne] Nat.one_pos (Nat.le_refl 1) (by decide)
  obtain ⟨cosigner, hcosigner⟩ : ∃ cosigner, cosigner? redeem keyOne.publicKey = some cosigner :=
    exists_cosigner? (.inr (List.mem_singleton_self _))
  have hinput : tx.inputs[0]? = some input := rfl
  have hinput' : tx.inputs[1]? = some input := rfl
  have hdigest : tx.digest 0 3 (demandScript redeem) = .ok missingOutputDigest := rfl
  have hdigest' : tx.digest 1 3 (demandScript redeem) = .ok missingOutputDigest := rfl
  have hfirst := signInput_of_unsigned hvalid hinput (by decide) hdigest hcosigner rfl
  have hsecond := signInput_of_unsigned hvalid hinput' (by decide) hdigest' hcosigner rfl
  have hspent : tx.verifyInput 0 (.encoded [0x51]) = true := by decide +kernel
  obtain ⟨_, hverdict, hcommute⟩ := inputs_independent Nat.zero_ne_one tx
  obtain ⟨houtcome, houtcome', hfinal⟩ := hcommute first second rfl rfl
  refine ⟨?_, ?_, hfinal, ?_⟩
  · rw [houtcome, Attempt.outcome, Attempt.result, hfirst]
    rfl
  · rw [houtcome', Attempt.outcome, Attempt.result, hsecond]
    rfl
  · rw [(hverdict second rfl _).1, hspent]

end Transaction

end Bitcoin
