import Bitcoin.Machine.Basic

/-!
# Opcodes that look at the transaction

A check of one signature (`Step.checkSig`) or of several (`Step.checkMultisig`) asks
whether they sign the input that is being spent. Neither fails on a bad signature: the
result is put on the stack. `Step.checkLockTime` compares the top item with the lock time.
-/

namespace Bitcoin

/-- Whether a signature, followed by its hash type, signs the input for a script with a
key. -/
def Spending.checkSignature (spending : Spending) (subScript : Script) (signature key : Bytes) :
    Except Error Bool :=
  match signature.getLast? with
  | none => .ok false
  | some hashType =>
    match Signature.ofDer signature.dropLast, PublicKey.ofBytes key .mainnet with
    | .ok decoded, .ok publicKey => do
      let digest ← spending.transaction.digest spending.index hashType.toUInt32 subScript
      .ok (publicKey.verifyDigest digest.toList decoded)
    | _, _ => .ok false

/-- The number of signatures that are matched when each is tried with the keys behind the
one that matched the signature before it. The rest is not tried once more signatures than
keys are left. -/
def Spending.countMatches (spending : Spending) (subScript : Script) :
    (signatures keys : List Bytes) → Except Error Nat
  | [], _ => .ok 0
  | _ :: _, [] => .ok 0
  | signature :: signatures, key :: keys =>
    if signatures.length > keys.length then .ok 0
    else do
      let matched ← spending.checkSignature subScript signature key
      if matched then
        let later ← spending.countMatches subScript signatures keys
        .ok (later + 1)
      else spending.countMatches subScript (signature :: signatures) keys

/-- Whether a lock time that a script demands is met by an input and its transaction: it is
not negative, of the same kind as the transaction's (a height or a time), not later, and
the input is not final. -/
def Spending.lockTimeMet (spending : Spending) (demanded : Int) : Bool :=
  let actual : Int := spending.transaction.lockTime.toNat
  decide (0 ≤ demanded) && decide (demanded < 500000000 ↔ actual < 500000000)
    && decide (demanded ≤ actual) && spending.input.sequence != 0xffffffff

/-- The script without any push of the given byte strings. -/
def Script.removePushes (script : Script) : List Bytes → Except Error Script
  | [] => .ok script
  | data :: rest => do
    let script ← script.removePush data
    script.removePushes rest

/-- The items from the top that are not empty, at most `n` of them. -/
def takeNonempty : (n : Nat) → List Item → List Bytes
  | 0, _ => []
  | _, [] => []
  | n + 1, item :: rest =>
    if item.toBytes.isEmpty then [] else item.toBytes :: takeNonempty n rest

namespace Step

/-- Takes `n` items, and gives their bytes from the lowest to the top. -/
def popMany (n : Nat) : Step (List Bytes) := do
  need n
  let m ← get
  set { m with stack := m.stack.drop n }
  return ((m.stack.take n).map Item.toBytes).reverse

/-- Takes the items from the top that are not empty, at most `n` of them, and gives their
bytes from the lowest to the top. -/
def popNonempty (n : Nat) : Step (List Bytes) := do
  let m ← get
  let found := takeNonempty n m.stack
  set { m with stack := m.stack.drop found.length }
  return found.reverse

/-- Replaces a signature and a key by whether the signature is good. -/
def checkSig : Step Unit := do
  need 2
  let (spending, subScript) ← context
  let key ← popBytes
  let signature ← popBytes
  let stripped ← ofExcept (subScript.removePush signature)
  let verified ← ofExcept (spending.checkSignature stripped signature key)
  push (.truth verified)

/-- Takes the number of keys and the keys. -/
def popKeys : Step (List Bytes) := do
  let n ← popInt
  if n < 0 ∨ 20 < n then fail (.keyCount n)
  else popMany n.toNat

/-- Takes the number of signatures demanded, which `keys` keys can meet. -/
def popRequired (keys : Nat) : Step Nat := do
  let n ← popInt
  if n < 0 ∨ (keys : Int) < n then fail (.signatureCount n keys)
  else return n.toNat

/-- Takes the signatures: as many as are demanded or, in a partial check, those that are
there. -/
def popSignatures (required : Nat) : Step (List Bytes) := do
  let m ← get
  if m.partialMultisig then popNonempty required else popMany required

/-- Takes the item below the signatures. -/
def popExtra : Step Item := fun m =>
  match m.stack with
  | [] => .error (.execution .missingExtraItem) m
  | item :: rest => .ok item { m with stack := rest }

/-- Replaces keys and signatures, with their numbers and an empty item below them, by
whether there are enough signatures and each is good for a key of its own, in order. -/
def checkMultisig : Step Unit := do
  let (spending, subScript) ← context
  let keys ← popKeys
  let required ← popRequired keys.length
  let signatures ← popSignatures required
  let extra ← popExtra
  let stripped ← ofExcept (subScript.removePushes signatures)
  let count ← ofExcept (spending.countMatches stripped signatures keys)
  modify fun m => { m with matchCount := count }
  push (.truth (extra.toBytes.isEmpty && count == signatures.length
    && signatures.length == required))

/-- Stops the machine unless the lock time on top of the stack, which stays there, is
met. -/
def checkLockTime : Step Unit := do
  let (spending, _) ← context
  need 1
  let m ← get
  let item := m.stack.headD (.bytes [])
  let demanded ← ofExcept (item.toInt 5)
  if !spending.lockTimeMet demanded then stop

end Step

end Bitcoin
