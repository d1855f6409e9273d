import Bitcoin.Key.Private
import Bitcoin.Transaction.Digest

/-!
# Signing inputs

`Transaction.signInput` signs an input with a private key and writes its script. For an
output that pays to a key hash, that is the signature and the key. For a demand of several
signatures, the new signature is merged with those that the input already has
(`Transaction.mergeSignature`), in the order of the keys.
-/

namespace Bitcoin

namespace Transaction

/-- The signature of an input with a private key, and the digest that it signs. -/
def signatureFor (tx : Transaction) (index : Nat) (hashType : HashType) (key : PrivateKey)
    (subScript : Script) : Except Error (Signature × FixedBytes 32) := do
  let digest ← tx.digest index hashType subScript
  let signature ← key.signDigest digest.toList
  .ok (signature, digest)

/-- How a private key takes part in a script. -/
inductive Role where
  /-- The script names the hash of one form of its public key. -/
  | keyHash (compressed : Bool)
  /-- Its public key is the one with this index. -/
  | cosigner (redeem : MultisigRedeem) (index : Nat)
deriving DecidableEq

/-- How a private key takes part in a script. -/
def roleIn (key : PublicKey) (subScript : Script) : Except Error Role :=
  match subScript.multisigRedeem? with
  | some redeem =>
    match redeem.keys.findIdx? fun k => k == key.toBytes false || k == key.toBytes true with
    | some index => .ok (.cosigner redeem index)
    | none => .error (.signing .keyNotInScript)
  | none =>
    match subScript.namedHash? with
    | none => .error (.signing .noKeyHash)
    | some hash =>
      if key.hash true = hash then .ok (.keyHash true)
      else if key.hash false = hash then .ok (.keyHash false)
      else .error (.signing .keyHashMismatch)

/-- The bytes by which a script supplies a signature. -/
def signatureBytes (signature : Signature) (hashType : UInt8) : Bytes :=
  signature.toDer ++ [hashType]

/-- The signature in the bytes by which a script supplies it, if it is of the given hash
type. -/
def ofSignatureBytes (bytes : Bytes) (hashType : UInt8) : Except Error Signature :=
  match bytes.getLast? with
  | none => .error (.signing .emptySignature)
  | some found =>
    if found = hashType then Signature.ofDer bytes.dropLast
    else .error (.signing .hashTypeMismatch)

/-- The signature of each cosigner, by the index of the public key. -/
abbrev Slots := List (Option Signature)

/-- Gives a signature to the first cosigner that has none and whose public key verifies
it. -/
def assign (keys : List PublicKey) (digest : FixedBytes 32) (slots : Slots)
    (signature : Signature) : Except Error Slots :=
  let fitting? := (keys.zip slots).findIdx? fun (key, slot) =>
    slot.isNone && key.verifyDigest digest.toList signature
  match fitting? with
  | some index => .ok (slots.set index (some signature))
  | none => .error (.signing .foreignSignature)

/-- The signatures that an input already has, given to the cosigners. -/
def assignAll (keys : List PublicKey) (digest : FixedBytes 32) (hashType : UInt8) :
    Slots → List Bytes → Except Error Slots
  | slots, [] => .ok slots
  | slots, bytes :: rest => do
    let signature ← ofSignatureBytes bytes hashType
    let slots ← assign keys digest slots signature
    assignAll keys digest hashType slots rest

/-- The script of an input after the signature of a cosigner has been added to it. -/
def mergeSignature (current : Script) (redeemScript : Script) (redeem : MultisigRedeem)
    (index : Nat) (signature : Signature) (digest : FixedBytes 32) (hashType : UInt8) :
    Except Error Script := do
  if current.bytes.isEmpty then
    Script.ofMultisigSignatures [signatureBytes signature hashType] redeemScript
  else
    let existing ← current.multisigSignatures
    if !existing.redeem.same redeemScript then .error (.signing .redeemMismatch)
    else if existing.signatures.length ≥ redeem.required then
      .error (.signing (.alreadyComplete existing.signatures.length redeem.required))
    else
      let keys ← redeem.keys.mapM fun key => PublicKey.ofBytes key .mainnet
      let slots ← assignAll keys digest hashType (keys.map fun _ => none) existing.signatures
      if (slots.getD index none).isSome then .error (.signing .alreadySigned)
      else
        let signatures := (slots.set index (some signature)).filterMap id
        Script.ofMultisigSignatures (signatures.map (signatureBytes · hashType)) redeemScript

/-- The script of an input after a private key has signed it. -/
def signedScript (tx : Transaction) (index : Nat) (hashType : HashType) (key : PrivateKey)
    (subScript : Script) : Except Error Script := do
  tx.checkInput index
  if hashType ≥ 0x100 then .error (.signing (.hashTypeTooLarge hashType))
  else if !subScript.isMultisigRedeem && !subScript.isPayToKeyHash then
    .error (.signing .unsupportedScript)
  else
    let stripped ← subScript.removeOp .codeSeparator
    let publicKey := key.publicKey
    let role ← roleIn publicKey stripped
    let (signature, digest) ← tx.signatureFor index hashType key stripped
    match role with
    | .keyHash compressed =>
      let signatureToken ← Token.ofData (signatureBytes signature hashType.toUInt8)
      let keyToken ← Token.ofData (publicKey.toBytes compressed)
      Script.ofTokens [signatureToken, keyToken]
    | .cosigner redeem cosigner =>
      let current := (tx.inputs[index]?.map (·.script)).getD Script.empty
      mergeSignature current stripped redeem cosigner signature digest hashType.toUInt8

/-- The transaction after a private key has signed an input. -/
def signInput (tx : Transaction) (index : Nat) (hashType : HashType) (key : PrivateKey)
    (subScript : Script) : Except Error Transaction := do
  let script ← tx.signedScript index hashType key subScript
  .ok (tx.withScript index script)

end Transaction

end Bitcoin
