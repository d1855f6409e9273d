import Bitcoin.Key.Public
import Bitcoin.Script.Number
import Bitcoin.Script.Template

/-!
# Standard scripts

An output pays to the hash of a key (`Script.payToKeyHash`) or of a script
(`Script.payToScriptHash`). The first is spent by a signature and a key
(`Script.signatureAndKey?`), the second by what the revealed script demands. A revealed
script usually demands some of several signatures (`Script.multisigRedeem`), and is spent
by these signatures and the script itself (`Script.multisigSignatures`). For each form
there is a function that builds it and one that recognises it.
-/

namespace Bitcoin

/-- What spends an output that pays to a key hash. -/
structure SignatureAndKey where
  /-- What the signature commits to. -/
  hashType : UInt8
  /-- The encoded signature, without the hash type. -/
  signature : Bytes
  /-- The encoded public key. -/
  key : Bytes
deriving DecidableEq

/-- A demand for some of several signatures. -/
structure MultisigRedeem where
  /-- The number of signatures. -/
  required : Nat
  /-- The encoded public keys. -/
  keys : List Bytes
deriving DecidableEq

/-- What meets a demand for several signatures. -/
structure MultisigSignatures where
  /-- The encoded signatures, each followed by its hash type. -/
  signatures : List Bytes
  /-- The script that demands them. -/
  redeem : Script
deriving DecidableEq

namespace Script

/-- The script that pays to a key hash. -/
def payToKeyHash (hash : FixedBytes 20) : Script :=
  .encoded ([0x76, 0xa9, 0x14] ++ hash.toList ++ [0x88, 0xac])

/-- The hash in a script that pays to a key hash. -/
def keyHash? (script : Script) : Option (FixedBytes 20) :=
  match script.bytes with
  | 0x76 :: 0xa9 :: 0x14 :: rest =>
    if rest.drop 20 = [0x88, 0xac] then FixedBytes.ofList? (rest.take 20) else none
  | _ => none

/-- The script that pays to a script hash. -/
def payToScriptHash (hash : FixedBytes 20) : Script :=
  .encoded ([0xa9, 0x14] ++ hash.toList ++ [0x87])

/-- The hash in a script that pays to a script hash. -/
def scriptHash? (script : Script) : Option (FixedBytes 20) :=
  match script.bytes with
  | 0xa9 :: 0x14 :: rest =>
    if rest.drop 20 = [0x87] then FixedBytes.ofList? (rest.take 20) else none
  | _ => none

/-- Whether a script pays to a key hash. -/
def isPayToKeyHash (script : Script) : Bool :=
  script.keyHash?.isSome

/-- Whether a script pays to a script hash. -/
def isPayToScriptHash (script : Script) : Bool :=
  script.scriptHash?.isSome

/-- The number from 1 to 16 that the opcode with a given byte pushes. -/
def countOfByte? (byte : UInt8) : Option Nat := do
  let op ← Opcode.ofByte? byte
  let n ← op.smallInt?
  if 1 ≤ n then some n else none

/-- Takes a byte string behind a length of one byte. -/
def readKey : Reader Bytes := do
  let length ← Reader.u8
  Reader.take length.toNat

/-- The keys, each behind its length, that fill a byte string. -/
def keysOfBytes? (count : Nat) (bytes : Bytes) : Option (List Bytes) :=
  match (Reader.many count readKey).runOn bytes with
  | .ok (keys, []) => if keys.all PublicKey.hasKeyForm then some keys else none
  | _ => none

/-- The demand for signatures that a script consists of. -/
def multisigRedeem? (script : Script) : Option MultisigRedeem :=
  match script.bytes with
  | [] => none
  | first :: rest =>
    match rest.reverse with
    | last :: count :: inner => do
      if last ≠ Opcode.checkMultisig.toByte then none
      else
        let required ← countOfByte? first
        let total ← countOfByte? count
        if required > total then none
        else
          let keys ← keysOfBytes? total inner.reverse
          some ⟨required, keys⟩
    | _ => none

/-- The demand for signatures that a script consists of. -/
def multisigRedeem (script : Script) : Except Error MultisigRedeem :=
  match script.multisigRedeem? with
  | some redeem => .ok redeem
  | none => .error (.scriptType .notMultisigRedeem)

/-- Whether a script demands some of several signatures. -/
def isMultisigRedeem (script : Script) : Bool :=
  script.multisigRedeem?.isSome

/-- The signatures, and the script demanding them, that tokens consist of. -/
def multisigSignaturesOfTokens? : List Token → Option MultisigSignatures
  | .op .zero :: rest => do
    let redeem ← (← rest.getLast?).data?
    if (Script.encoded redeem).isMultisigRedeem then
      let signatures ← rest.dropLast.mapM Token.data?
      some ⟨signatures, .encoded redeem⟩
    else none
  | _ => none

/-- The signatures, and the script demanding them, that a script consists of. -/
def multisigSignatures? (script : Script) : Option MultisigSignatures := do
  let tokens ← script.tokens.toOption
  multisigSignaturesOfTokens? tokens

/-- The signatures, and the script demanding them, that a script consists of. -/
def multisigSignatures (script : Script) : Except Error MultisigSignatures :=
  match script.multisigSignatures? with
  | some found => .ok found
  | none => .error (.scriptType .notMultisigSignatures)

/-- Whether a script supplies several signatures. -/
def isMultisigSignatures (script : Script) : Bool :=
  script.multisigSignatures?.isSome

/-- The signature and the key that tokens consist of. -/
def signatureAndKeyOfTokens? : List Token → Option SignatureAndKey
  | [.push signature, .push key] => do
    let hashType ← signature.data.getLast?
    let der := signature.data.dropLast
    if PublicKey.hasKeyForm key.data && (Signature.ofDer der).isOk then
      some ⟨hashType, der, key.data⟩
    else none
  | _ => none

/-- The signature and the key that a script consists of. -/
def signatureAndKey? (script : Script) : Option SignatureAndKey := do
  let tokens ← script.tokens.toOption
  signatureAndKeyOfTokens? tokens

/-- The signature and the key that a script consists of. -/
def signatureAndKey (script : Script) : Except Error SignatureAndKey :=
  match script.signatureAndKey? with
  | some found => .ok found
  | none => .error (.scriptType .notSignatureAndKey)

/-- Whether a script supplies a signature and a key. -/
def isSignatureAndKey (script : Script) : Bool :=
  script.signatureAndKey?.isSome

/-- The push of a public key. -/
def keyToken (key : Bytes) : Except Error Token :=
  if PublicKey.hasKeyForm key then Token.ofData key
  else .error (.domain (.notPublicKey key.length))

/-- The opcode that pushes a number from 0 to 16; zero for any other. -/
def countOpcode (n : Nat) : Opcode :=
  (Opcode.ofSmallInt? n).getD .zero

/-- The script that demands so many signatures by the given keys. -/
def ofMultisigRedeem (required : Nat) (keys : List Bytes) : Except Error Script := do
  if required = 0 ∨ required > keys.length ∨ keys.length > 16 then
    .error (.domain (.multisigParameters required keys.length))
  else
    let keyTokens ← keys.mapM keyToken
    ofTokens (.op (countOpcode required)
      :: (keyTokens ++ [.op (countOpcode keys.length), .op .checkMultisig]))

/-- The script that supplies signatures, each followed by its hash type, and the script
that demands them. -/
def ofMultisigSignatures (signatures : List Bytes) (redeem : Script) : Except Error Script := do
  let demand ← redeem.multisigRedeem
  if signatures.length > demand.keys.length then
    .error (.signing (.tooManySignatures signatures.length demand.keys.length))
  else
    let signatureTokens ← signatures.mapM Token.ofData
    let redeemToken ← Token.ofData redeem.bytes
    ofTokens (.op .zero :: (signatureTokens ++ [redeemToken]))

/-- The bytes that push an integer: an opcode if there is one, else a push of at most nine
bytes. -/
def pushInt (n : Int) : Bytes :=
  if n = -1 then [Opcode.negativeOne.toByte]
  else if n = 0 then [Opcode.zero.toByte]
  else if 1 ≤ n ∧ n ≤ 16 then [UInt8.ofNat (0x50 + n.toNat)]
  else (Push.mk .inline (ScriptNumber.encode n)).encode

end Script

end Bitcoin
