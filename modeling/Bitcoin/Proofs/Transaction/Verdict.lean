import Bitcoin.Proofs.Machine.Context
import Bitcoin.Proofs.Machine.Output
import Bitcoin.Proofs.Transaction.Spending

/-!
# When an input spends an output

An input spends an output that pays to a script hash exactly if its script and the script that it
reveals complete, each on what it finds (`Transaction.verifyInput_payToScriptHash_iff`). It spends
an output that pays to a key hash exactly if its script leaves the key and a signature that this
key verifies (`Transaction.verifyInput_payToKeyHash_iff`), whatever that script does before.
-/

namespace Bitcoin

namespace Step

variable {m m' : Machine} {hash : FixedBytes 20} {inputScript outputScript : Script}

/-- The check of the script that an input has revealed. -/
def checkRevealed (inputScript : Script) (partially : Bool) (redeem : Script) : Step Bool :=
  match inputScript.multisigSignatures? with
  | some found =>
    if partially then runPartially redeem found.signatures.length else runFully redeem
  | none => runFully redeem

theorem isValid_eq_ok_true_iff :
  isValid m = .ok true m' ↔ m.valid = true ∧ m' = m
  := by
  constructor
  · intro h
    obtain ⟨hvalid, rfl⟩ := EStateM.Result.ok.inj h
    exact ⟨hvalid, rfl⟩
  · rintro ⟨hvalid, rfl⟩
    change EStateM.Result.ok m'.valid m' = _
    rw [hvalid]

/-- The revealed script is met if it is executed to its end and leaves something true on top. -/
theorem runFully_eq_ok_true_iff {redeem : Script} :
  runFully redeem m = .ok true m'
    ↔ Completes (runScript redeem) m m' ∧ ∃ top rest, m'.stack = top :: rest ∧ top.toBool = true
  := by
  rw [runFully, bind_eq_ok_iff]
  constructor
  · rintro ⟨_, m₁, hrun, hanswer⟩
    obtain ⟨hvalid, rfl⟩ := isValid_eq_ok_true_iff.mp hanswer
    obtain ⟨hm', htop⟩ := Machine.valid_iff.mp hvalid
    exact ⟨⟨hrun, hm'⟩, htop⟩
  · rintro ⟨⟨hrun, hm'⟩, htop⟩
    exact ⟨(), m', hrun, isValid_eq_ok_true_iff.mpr ⟨Machine.valid_iff.mpr ⟨hm', htop⟩, rfl⟩⟩

theorem checkRevealed_false (inputScript redeem : Script) :
  checkRevealed inputScript false redeem = runFully redeem
  := by
  rw [checkRevealed]
  cases inputScript.multisigSignatures? <;> rfl

/-- The script that is revealed is the item that was on top of the saved stack. -/
theorem revealScript_of_saved {item : Item} {stack : List Item}
    (h : m.savedStack = some (item :: stack)) :
  revealScript m = .ok (.encoded item.toBytes) { m with
    stack
    savedStack := none
    subScript? := some (.encoded item.toBytes) }
  := by
  have hrestore : restoreStack m
      = .ok () { m with stack := item :: stack, savedStack := none } := by
    rw [restoreStack, h]
  rw [revealScript, bind_of_ok hrestore, bind_of_ok (pop_of_cons rfl)]
  rfl

/-- An output that pays to the hash of a script is spent in two phases. -/
theorem spend_eq_of_scriptHash (h : outputScript.isPayToScriptHash = true) (partially : Bool) :
  spend inputScript outputScript partially = do
    runScript inputScript
    saveStack
    runScript outputScript
    let hashMatches ← isValid
    let redeem ← revealScript
    let met ← checkRevealed inputScript partially redeem
    return hashMatches && met
  := by
  rw [spend, if_pos h]
  simp only [checkRevealed]
  cases inputScript.multisigSignatures? with
  | none => rfl
  | some found => cases partially <;> rfl

/-- To spend an output that pays to a script hash, the script of the input has to leave a script
with that hash on top, and this script is then checked on what is below it. -/
theorem spend_scriptHash_eq_ok_true_iff {partially : Bool}
    (h : outputScript.scriptHash? = some hash) :
  spend inputScript outputScript partially m = .ok true m'
    ↔ ∃ m₁ item stack, Completes (runScript inputScript) m m₁ ∧ m₁.size < m₁.limits.stackSize
      ∧ m₁.stack = item :: stack ∧ Digest.hash160 item.toBytes = hash
      ∧ checkRevealed inputScript partially (.encoded item.toBytes) { m₁ with
        stack
        savedStack := none
        subScript? := some (.encoded item.toBytes) } = .ok true m'
  := by
  have hprogram := Script.program_of_scriptHash? h
  rw [spend_eq_of_scriptHash (Option.isSome_of_eq_some h)]
  constructor
  · intro h
    obtain ⟨_, m₁, hinput, h⟩ := bind_eq_ok_iff.mp h
    let m₂ : Machine := { m₁ with savedStack := some m₁.stack }
    have hsave : saveStack m₁ = .ok () m₂ := rfl
    rw [bind_of_ok hsave] at h
    obtain ⟨_, m₃, houtput, h⟩ := bind_eq_ok_iff.mp h
    obtain ⟨_, _, ⟨⟩, h⟩ := bind_eq_ok_iff.mp h
    obtain ⟨redeem, m₄, hreveal, h⟩ := bind_eq_ok_iff.mp h
    obtain ⟨met, m₅, hmet, h⟩ := bind_eq_ok_iff.mp h
    obtain ⟨hanswer, rfl⟩ := EStateM.Result.ok.inj h
    obtain ⟨hvalid, rfl⟩ := Bool.and_eq_true_iff.mp hanswer
    obtain ⟨hm₃, top, _, htop, hright⟩ := Machine.valid_iff.mp hvalid
    obtain ⟨hm₁, hroom, item, stack, hstack, rfl⟩ :=
      (completes_payToScriptHash_iff hprogram).mp ⟨houtput, hm₃⟩
    cases htop
    have hhash : Digest.hash160 item.toBytes = hash := FixedBytes.toList_inj.mp (eq_of_beq hright)
    have hsaved := congrArg some hstack
    rw [revealScript_of_saved hsaved] at hreveal
    cases hreveal
    exact ⟨m₁, item, _, ⟨hinput, hm₁⟩, hroom, hstack, hhash, hmet⟩
  · rintro ⟨m₁, item, stack, ⟨hinput, hm₁⟩, hroom, hstack, rfl, hmet⟩
    let m₂ : Machine := { m₁ with savedStack := some m₁.stack }
    let m₃ : Machine := { m₂ with stack := .truth true :: stack }
    have hsave : saveStack m₁ = .ok () m₂ := rfl
    have houtput : Completes (runScript outputScript) m₂ m₃ := by
      apply (completes_payToScriptHash_iff hprogram).mpr
      refine ⟨hm₁, hroom, item, stack, hstack, ?_⟩
      rw [beq_self_eq_true]
    have hvalid : isValid m₃ = .ok true m₃ :=
      isValid_eq_ok_true_iff.mpr ⟨Machine.valid_iff.mpr ⟨hm₁, _, _, rfl, rfl⟩, rfl⟩
    have hreveal := @revealScript_of_saved m₃ item stack (congrArg some hstack)
    rw [bind_of_ok hinput, bind_of_ok hsave, bind_of_ok houtput.1, bind_of_ok hvalid,
      bind_of_ok hreveal, bind_of_ok hmet]
    rfl

/-- To spend any other output, its script has to leave a true item on what the script of the input
has left. -/
theorem spend_output_eq_ok_true_iff {partially : Bool}
    (h : outputScript.isPayToScriptHash = false) :
  spend inputScript outputScript partially m = .ok true m'
    ↔ ∃ m₁, Completes (runScript inputScript) m m₁ ∧ Completes (runScript outputScript) m₁ m'
      ∧ ∃ top rest, m'.stack = top :: rest ∧ top.toBool = true
  := by
  have hspend : spend inputScript outputScript partially
      = runScript inputScript >>= fun _ => runFully outputScript := by
    rw [spend, h, if_neg Bool.false_ne_true]
    rfl
  rw [hspend, bind_eq_ok_iff]
  constructor
  · rintro ⟨_, m₁, hinput, houtput⟩
    obtain ⟨hcompletes, htop⟩ := runFully_eq_ok_true_iff.mp houtput
    have hm₁ := (completes_unlessStopped_iff.mp hcompletes).1
    exact ⟨m₁, ⟨hinput, hm₁⟩, hcompletes, htop⟩
  · rintro ⟨m₁, hinput, hcompletes, htop⟩
    exact ⟨(), m₁, hinput.1, runFully_eq_ok_true_iff.mpr ⟨hcompletes, htop⟩⟩

end Step

/-! ### Signatures -/

/-- Whether a byte string is a signature in strict DER, followed by a hash type, that a key
verifies over the digest of an input for a script and this hash type. -/
def Transaction.Signed (tx : Transaction) (index : Nat) (subScript : Script)
    (signature key : Bytes) : Prop :=
  ∃ (der : Bytes) (hashType : UInt8) (decoded : Signature) (publicKey : PublicKey)
      (digest : FixedBytes 32),
    signature = der ++ [hashType] ∧ Signature.ofDer der = .ok decoded
    ∧ PublicKey.ofBytes key .mainnet = .ok publicKey
    ∧ tx.digest index hashType.toUInt32 subScript = .ok digest
    ∧ publicKey.verifyDigest digest.toList decoded = true

/-- A check of a signature succeeds if the key has signed. -/
theorem Spending.checkSignature_eq_ok_true_iff {spending : Spending} {subScript : Script}
    {signature key : Bytes} :
  spending.checkSignature subScript signature key = .ok true
    ↔ spending.transaction.Signed spending.index subScript signature key
  := by
  constructor
  · intro h
    rw [checkSignature] at h
    split at h
    · cases h
    · next hashType hlast =>
      split at h
      · next decoded publicKey hder hkey =>
        obtain ⟨digest, hdigest, h⟩ := bind_eq_ok_iff.mp h
        have hsplit := List.dropLast_append_getLast? _ hlast
        exact ⟨_, hashType, decoded, publicKey, digest, hsplit.symm, hder, hkey, hdigest,
          Except.ok.inj h⟩
      · cases h
  · rintro ⟨der, hashType, decoded, publicKey, digest, rfl, hder, hkey, hdigest, hverified⟩
    rw [checkSignature, List.getLast?_concat]
    dsimp only
    rw [List.dropLast_concat, hder, hkey]
    dsimp only
    rw [bind_of_eq_ok hdigest, hverified]

/-! ### Verdicts -/

/-- The machine on which the script of an input is run. -/
def Machine.ready (spending : Spending) (subScript : Script) : Machine :=
  { initial with spending? := some spending, subScript? := some subScript }

theorem Machine.forInput_eq_ok_iff {tx : Transaction} {index : Nat} {subScript : Script}
    {m : Machine} :
  forInput tx index subScript = .ok m
    ↔ ∃ hindex : index < tx.inputs.length, m = ready ⟨tx, index, hindex⟩ subScript
  := by
  rw [forInput]
  split
  · next hindex =>
    constructor
    · rintro ⟨⟩
      exact ⟨hindex, rfl⟩
    · rintro ⟨_, rfl⟩
      rfl
  · next hindex =>
    constructor
    · rintro ⟨⟩
    · rintro ⟨h, _⟩
      exact absurd h hindex

/-- A script leaves the limits, the input and the script of the output as they were. -/
theorem Step.context_of_completes_ready {script : Script} {spending : Spending}
    {subScript : Script} {m : Machine}
    (h : Completes (runScript script) (.ready spending subScript) m) :
  m.limits = .standard ∧ m.savedStack = none ∧ m.spending? = some spending
    ∧ m.subScript? = some subScript
  := by
  have hcontext := (KeepsContext.runScript script).of_ok h.1
  exact ⟨hcontext.limits, hcontext.savedStack, hcontext.spending?, hcontext.subScript?⟩

namespace Transaction

variable {tx : Transaction} {index : Nat} {outputScript : Script} {hash : FixedBytes 20}

/-- An input is valid if it is there and a fresh machine spends the output. -/
theorem verify_eq_ok_true_iff {partially : Bool} :
  tx.verify index outputScript partially = .ok true
    ↔ ∃ input m m', tx.inputs[index]? = some input
      ∧ Machine.forInput tx index outputScript = .ok m
      ∧ Step.spend input.script outputScript partially m = .ok true m'
  := by
  constructor
  · intro h
    rw [verify] at h
    obtain ⟨_, _, h⟩ := bind_eq_ok_iff.mp h
    obtain ⟨m, hm, h⟩ := bind_eq_ok_iff.mp h
    split at h
    · cases h
    · next input hinput =>
      split at h
      · next valid m' hspend =>
        cases h
        exact ⟨input, m, m', hinput, hm, hspend⟩
      · cases h
  · rintro ⟨input, m, m', hinput, hm, hspend⟩
    rw [verify_eq_verdict hinput hm, hspend]
    rfl

/-- An error counts as a refusal. -/
theorem toOption_getD_eq_true_iff {answer : Except Error Bool} :
  answer.toOption.getD false = true ↔ answer = .ok true
  := by
  cases answer with
  | error e =>
    constructor
    · rintro ⟨⟩
    · rintro ⟨⟩
  | ok valid =>
    rw [Except.ok.injEq]
    rfl

/-- An output that pays to a script hash is spent exactly if the script of the input leaves, on the
machine for the input, a script with that hash on top of its stack, and no more than 999 items in
all, and if this script, run for itself on what is below it, leaves a true item. Neither script may
end with an error or stop the machine. -/
theorem verifyInput_payToScriptHash_iff :
  tx.verifyInput index (Script.payToScriptHash hash) = true
    ↔ ∃ (input : Input) (m m₁ m₂ : Machine) (item : Item) (stack : List Item),
      tx.inputs[index]? = some input
      ∧ Machine.forInput tx index (Script.payToScriptHash hash) = .ok m
      ∧ Step.Completes (Step.runScript input.script) m m₁
      ∧ m₁.size ≤ 999
      ∧ m₁.stack = item :: stack
      ∧ Digest.hash160 item.toBytes = hash
      ∧ Step.Completes (Step.runScript (.encoded item.toBytes))
        { m₁ with stack, subScript? := some (.encoded item.toBytes) } m₂
      ∧ ∃ top rest, m₂.stack = top :: rest ∧ top.toBool = true
  := by
  have hspends := fun inputScript m m' => @Step.spend_scriptHash_eq_ok_true_iff m m' hash
    inputScript _ false (Script.scriptHash?_eq_some_iff.mpr rfl)
  simp only [verifyInput, toOption_getD_eq_true_iff, verify_eq_ok_true_iff, hspends,
    Step.checkRevealed_false, Step.runFully_eq_ok_true_iff]
  constructor
  · rintro ⟨input, m, m₂, hinput, hm, m₁, item, stack, hcompletes, hroom, hstack, hhash, hrevealed,
      htop⟩
    obtain ⟨_, rfl⟩ := Machine.forInput_eq_ok_iff.mp hm
    obtain ⟨hlimits, hsaved, _, _⟩ := Step.context_of_completes_ready hcompletes
    rw [hlimits] at hroom
    rw [← hsaved] at hrevealed
    exact ⟨input, _, m₁, m₂, item, stack, hinput, hm, hcompletes, Nat.le_of_lt_succ hroom, hstack,
      hhash, hrevealed, htop⟩
  · rintro ⟨input, m, m₁, m₂, item, stack, hinput, hm, hcompletes, hroom, hstack, hhash, hrevealed,
      htop⟩
    obtain ⟨_, rfl⟩ := Machine.forInput_eq_ok_iff.mp hm
    obtain ⟨hlimits, hsaved, _, _⟩ := Step.context_of_completes_ready hcompletes
    have hroom' : m₁.size < m₁.limits.stackSize := by
      rw [hlimits]
      exact Nat.lt_succ_of_le hroom
    rw [← hsaved]
    exact ⟨input, _, m₂, hinput, hm, m₁, item, stack, hcompletes, hroom', hstack, hhash, hrevealed,
      htop⟩

/-- An output that pays to a key hash is spent exactly if the script of the input, whatever it is,
leaves on the machine for the input a key with that hash on top of its stack, below it a signature
that the key verifies, and no more than 998 items in all. It may not end with an error or stop the
machine. The signature signs the script of the output, without a push of the signature itself. -/
theorem verifyInput_payToKeyHash_iff :
  tx.verifyInput index (Script.payToKeyHash hash) = true
    ↔ ∃ (input : Input) (m m₁ : Machine) (key signature : Item) (stack : List Item)
        (stripped : Script),
      tx.inputs[index]? = some input
      ∧ Machine.forInput tx index (Script.payToKeyHash hash) = .ok m
      ∧ Step.Completes (Step.runScript input.script) m m₁
      ∧ m₁.size ≤ 998
      ∧ m₁.stack = key :: signature :: stack
      ∧ Digest.hash160 key.toBytes = hash
      ∧ (Script.payToKeyHash hash).removePush signature.toBytes = .ok stripped
      ∧ tx.Signed index stripped signature.toBytes key.toBytes
  := by
  have hspends := fun inputScript m m' => @Step.spend_output_eq_ok_true_iff m m' inputScript
    (Script.payToKeyHash hash) false (Script.isPayToScriptHash_payToKeyHash hash)
  simp only [verifyInput, toOption_getD_eq_true_iff, verify_eq_ok_true_iff, hspends,
    Step.completes_payToKeyHash_iff]
  constructor
  · rintro ⟨input, m, m₂, hinput, hm, m₁, hcompletes, ⟨_, hroom, key, signature, stack, spending,
      subScript, stripped, verified, hstack, hhash, hspending, hscript, hstripped, hverified, rfl⟩,
      top, _, htop, htrue⟩
    obtain ⟨_, rfl⟩ := Machine.forInput_eq_ok_iff.mp hm
    obtain ⟨hlimits, _, hready, hreadyScript⟩ := Step.context_of_completes_ready hcompletes
    rw [hlimits] at hroom
    cases hready.symm.trans hspending
    cases hreadyScript.symm.trans hscript
    obtain ⟨rfl, _⟩ := List.cons.inj htop
    obtain rfl : verified = true := htrue
    exact ⟨input, _, m₁, key, signature, _, stripped, hinput, hm, hcompletes,
      Nat.le_of_add_le_add_right hroom, hstack, FixedBytes.toList_inj.mp hhash, hstripped,
      Spending.checkSignature_eq_ok_true_iff.mp hverified⟩
  · rintro ⟨input, m, m₁, key, signature, stack, stripped, hinput, hm, hcompletes, hroom, hstack,
      hhash, hstripped, hsigned⟩
    obtain ⟨hindex, rfl⟩ := Machine.forInput_eq_ok_iff.mp hm
    obtain ⟨hlimits, _, hspending, hscript⟩ := Step.context_of_completes_ready hcompletes
    have hroom' : m₁.size + 2 ≤ m₁.limits.stackSize := by
      rw [hlimits]
      exact Nat.add_le_add_right hroom 2
    let spending : Spending := ⟨tx, index, hindex⟩
    have hverified : spending.checkSignature stripped signature.toBytes key.toBytes = .ok true :=
      Spending.checkSignature_eq_ok_true_iff.mpr hsigned
    exact ⟨input, _, _, hinput, hm, m₁, hcompletes, ⟨hcompletes.2, hroom', key, signature, stack,
      spending, _, stripped, true, hstack, FixedBytes.toList_inj.mpr hhash, hspending,
      hscript, hstripped, hverified, rfl⟩, _, _, rfl, rfl⟩

end Transaction

end Bitcoin
