import Bitcoin.Machine.Run

/-!
# Verifying inputs

An input is valid when its script and then the script of the output it spends run and leave
a true item (`Transaction.verifyInput`). An output that pays to a script hash asks for more:
the script with that hash, which the input reveals, must then run as well. A partial
verification (`Transaction.verifyPartially`) is content if the revealed script finds at
least one good signature.
-/

namespace Bitcoin

namespace Step

/-- Whether a script has not failed and the top item is true. -/
def isValid : Step Bool := do
  let m ← get
  return m.valid

/-- Goes back to the saved stack and takes the script that is its top item. -/
def revealScript : Step Script := do
  restoreStack
  let item ← pop
  let redeem := Script.encoded item.toBytes
  modify fun m => { m with subScript? := some redeem }
  return redeem

/-- Whether the revealed script runs and finds signatures, no more than there are. -/
def runPartially (redeem : Script) (present : Nat) : Step Bool := do
  modify fun m => { m with partialMultisig := true }
  runScript redeem
  let m ← get
  return decide (0 < m.matchCount) && decide (m.matchCount ≤ present)

/-- Whether the revealed script runs and leaves a true item. -/
def runFully (redeem : Script) : Step Bool := do
  runScript redeem
  isValid

/-- Whether the script of an input, the script that it spends and, if that pays to a script
hash, the revealed script run. -/
def spend (inputScript outputScript : Script) (partially : Bool) : Step Bool := do
  runScript inputScript
  if outputScript.isPayToScriptHash then
    saveStack
    runScript outputScript
    let hashMatches ← isValid
    let redeem ← revealScript
    let met ← match inputScript.multisigSignatures? with
      | some found =>
        if partially then runPartially redeem found.signatures.length else runFully redeem
      | none => runFully redeem
    return hashMatches && met
  else
    runScript outputScript
    isValid

end Step

namespace Transaction

/-- Whether an input spends an output with a given script; an error means that it does
not. -/
def verify (tx : Transaction) (index : Nat) (outputScript : Script) (partially : Bool) :
    Except Error Bool := do
  tx.checkInput index
  let machine ← Machine.forInput tx index outputScript
  match tx.inputs[index]? with
  | none => .ok false
  | some input =>
    match Step.spend input.script outputScript partially machine with
    | .ok valid _ => .ok valid
    | .error e _ => .error e

/-- Whether an input validly spends an output with a given script. -/
def verifyInput (tx : Transaction) (index : Nat) (outputScript : Script) : Bool :=
  (tx.verify index outputScript false).toOption.getD false

/-- Whether an input spends an output with a given script once the missing signatures are
added, if the output demands several behind a script hash and the input has some; else
whether it validly spends it. -/
def verifyPartially (tx : Transaction) (index : Nat) (outputScript : Script) : Bool :=
  (tx.verify index outputScript true).toOption.getD false

end Transaction

end Bitcoin
