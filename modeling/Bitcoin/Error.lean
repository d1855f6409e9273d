import Bitcoin.Base58
import Bitcoin.Decimal
import Bitcoin.Hex
import Bitcoin.Script.PushKind

/-!
# Errors

An operation that fails gives its cause. The causes are sorted by the activity they belong
to: decoding (`DecodingFault`), reading the structure of a script (`ParsingFault`),
recognising a standard script (`TypeFault`), executing a script (`ExecutionFault`),
signing (`SigningFault`), and everything that asks for a value outside its range
(`DomainFault`). An `Error` is a cause of one of these, and `Error.message` is its
wording.
-/

namespace Bitcoin

/-- Why bytes or text do not encode a value. -/
inductive DecodingFault where
  /-- A text is not hexadecimal. -/
  | hex (cause : Hex.DecodeError)
  /-- A text is not Base58Check. -/
  | base58 (cause : Base58.DecodeError)
  /-- More bytes were wanted at an offset than are left. -/
  | endOfData (wanted offset available : Nat)
  /-- A hash does not have 32 bytes. -/
  | hashLength (length : Nat)
  /-- The payload of an address does not have 21 bytes. -/
  | addressLength (length : Nat)
  /-- No kind of address has this version byte. -/
  | addressVersion (version : UInt8)
  /-- No opcode has the byte at an offset. -/
  | unknownOpcode (byte : UInt8) (offset : Nat)
  /-- A text has no digits, or more than 64. -/
  | not256Bit (text : String)
  /-- A compact signature does not have 64 bytes. -/
  | signatureLength (length : Nat)
  /-- A private key does not have 32 bytes. -/
  | privateKeyLength (length : Nat)
  /-- The payload of a private key's text form has the wrong length or marker. -/
  | walletKeyLength (length : Nat)
  /-- No network has this version byte for private keys. -/
  | walletKeyVersion (version : UInt8)
  /-- A public key has a header byte that does not go with its length. -/
  | publicKeyHeader (header : UInt8) (length : Nat)
  /-- A public key has no bytes. -/
  | publicKeyEmpty
  /-- An extended key does not have 78 bytes. -/
  | extendedKeyLength (length : Nat)
  /-- No kind of extended key has this version. -/
  | extendedKeyVersion (version : UInt32)
  /-- The key of an extended private key does not start with a zero byte. -/
  | privateMaterial
  /-- The key of an extended public key is not a compressed point. -/
  | publicMaterial
  /-- An input taken for a coinbase input spends an output. -/
  | notCoinbase
  /-- Bytes follow a transaction that should end the text. -/
  | trailingBytes (count : Nat)
deriving DecidableEq

/-- Why a text or a sequence of tokens is not a script. -/
inductive ParsingFault where
  /-- A word is no mnemonic. -/
  | unknownMnemonic (word : String)
  /-- An empty byte string has no shortest push. -/
  | emptyPush
  /-- A form of push cannot carry that many bytes. -/
  | pushCapacity (length : Nat) (kind : PushKind)
  /-- A word that should hold data does not start with `0x`. -/
  | notHexWord (word : String)
  /-- A word starts with `0x`, and hexadecimal text does not follow. -/
  | badHexWord (word : String) (cause : Hex.DecodeError)
  /-- The text ends where the length of a push should stand. -/
  | lengthMissing (op : Opcode)
  /-- The length of a push does not start with `0x`. -/
  | lengthNotHex (op : Opcode) (word : String)
  /-- The length of a push is not a number. -/
  | badLength (op : Opcode) (word : String)
  /-- The text ends where the data of a push should stand. -/
  | dataMissing (op : Opcode)
  /-- The data of a push does not have the length given. -/
  | lengthMismatch (op : Opcode) (declared actual : Nat)
  /-- Conditionals are nested deeper than the greatest depth. -/
  | nestedTooDeep (limit : Nat)
  /-- An alternative outside of any conditional. -/
  | strayElse
  /-- A second alternative in one conditional. -/
  | secondElse
  /-- An end outside of any conditional. -/
  | strayEndIf
  /-- A conditional without an end. -/
  | missingEndIf
deriving DecidableEq

/-- What a script should have been. -/
inductive TypeFault where
  /-- It demands several signatures. -/
  | notMultisigRedeem
  /-- It supplies several signatures. -/
  | notMultisigSignatures
  /-- It supplies a signature and a key. -/
  | notSignatureAndKey
deriving DecidableEq

/-- Why a script cannot be executed further. -/
inductive ExecutionFault where
  /-- A number has more bytes than are allowed. -/
  | numberTooLong (length limit : Nat)
  /-- A number has more than eight bytes. -/
  | numberTooLarge
  /-- The transaction has no such input. -/
  | inputOutOfRange (index inputs : Nat)
  /-- Conditionals are entered deeper than the limit. -/
  | nestedTooDeep
  /-- There is no copy of the stack. -/
  | noSavedStack
  /-- The stack has no item. -/
  | emptyStack
  /-- The stacks hold more items than the limit. -/
  | tooManyItems (count : Nat)
  /-- The stack has fewer items than an opcode needs. -/
  | tooFewOperands (needed : Nat)
  /-- No transaction is being spent. -/
  | noTransaction
  /-- There is no script to hash. -/
  | noSubScript
  /-- The alternative stack has no item. -/
  | emptyAltStack
  /-- An opcode names an item that is not there. -/
  | itemOutOfRange (op : Opcode) (index : Int)
  /-- An opcode that only gives a script its structure was executed. -/
  | structuralOpcode (op : Opcode)
  /-- A number of public keys is negative or too great. -/
  | keyCount (count : Int)
  /-- A number of signatures is negative or greater than the number of keys. -/
  | signatureCount (count : Int) (keys : Nat)
  /-- The item below the signatures is missing. -/
  | missingExtraItem
deriving DecidableEq

/-- Why an input cannot be signed. -/
inductive SigningFault where
  /-- There are more signatures than keys. -/
  | tooManySignatures (signatures keys : Nat)
  /-- The key is none of those of the script. -/
  | keyNotInScript
  /-- The script names no key hash. -/
  | noKeyHash
  /-- The key is not the one whose hash the script names. -/
  | keyHashMismatch
  /-- The hash type has more than eight bits. -/
  | hashTypeTooLarge (hashType : UInt32)
  /-- The script is of no kind that can be signed. -/
  | unsupportedScript
  /-- The input already reveals another script. -/
  | redeemMismatch
  /-- The input already has all its signatures. -/
  | alreadyComplete (present required : Nat)
  /-- The input already has an empty signature. -/
  | emptySignature
  /-- The input already has a signature of another hash type. -/
  | hashTypeMismatch
  /-- The input already has a signature by none of the keys. -/
  | foreignSignature
  /-- The input already has a signature by this key. -/
  | alreadySigned
  /-- A signature to be recovered from has no recovery id. -/
  | noRecoveryId
deriving DecidableEq

/-- Why a byte string is not a signature in the strict distinguished encoding. -/
inductive DerFault where
  /-- It has fewer than eight bytes. -/
  | tooShort
  /-- It does not start a sequence. -/
  | noSequence
  /-- The sequence does not end with the bytes. -/
  | sequenceLength
  /-- The first number is not marked as an integer. -/
  | noFirstInteger
  /-- The first number is empty or too long. -/
  | firstLength
  /-- The second number is not marked as an integer. -/
  | noSecondInteger
  /-- The second number is empty or does not end with the bytes. -/
  | secondLength
  /-- A number is negative. -/
  | negative
  /-- A number has more leading zeros than its sign needs. -/
  | padded
  /-- A number is not below the order of the curve. -/
  | outOfRange
  /-- A number is zero. -/
  | zero
deriving DecidableEq

/-- Which argument lies outside of the domain of an operation. -/
inductive DomainFault where
  /-- Recovery finds no key. -/
  | unrecoverable
  /-- A token cannot be inserted there. -/
  | insertIndex (index : Nat)
  /-- There is no token to delete there. -/
  | deleteIndex (index : Nat)
  /-- There is no token there. -/
  | tokenIndex (index : Nat)
  /-- So many of so many keys cannot be demanded. -/
  | multisigParameters (required keys : Nat)
  /-- A byte string has neither the size nor the header of a public key. -/
  | notPublicKey (length : Nat)
  /-- The transaction has no such input. -/
  | inputOutOfRange (index inputs : Nat)
  /-- A byte string is not an encoded signature. -/
  | der (cause : DerFault)
  /-- A component of a signature is zero. -/
  | zeroComponent
  /-- A recovery id is greater than three. -/
  | recoveryId
  /-- Recovery needs the recovery id. -/
  | noRecoveryId
  /-- A scalar is given by more than 32 bytes. -/
  | scalarLength (length : Nat)
  /-- A number is not below the order of the curve. -/
  | scalarRange
  /-- Two coordinates do not lie on the curve. -/
  | notOnCurve
  /-- No point has this first coordinate. -/
  | noSuchX
  /-- A digest does not have 32 bytes. -/
  | digestLength (length : Nat)
  /-- A private key is zero. -/
  | zeroKey
  /-- The point at infinity is no key. -/
  | infinityKey
  /-- The coordinates of a public key do not lie on the curve. -/
  | keyNotOnCurve
  /-- Half of a derived code is not below the order of the curve. -/
  | derivedRange
  /-- A key without a parent has a parent's mark. -/
  | masterMetadata
  /-- A key has no children because it is too deep. -/
  | maximumDepth
  /-- The private child with an index is zero. -/
  | childZero (index : UInt32)
  /-- The public child with an index is the point at infinity. -/
  | childInfinity (index : UInt32)
  /-- A hardened child needs the private key. -/
  | hardenedFromPublic
  /-- An absolute path starts at a key that has a parent. -/
  | rootNotMaster
  /-- A component of a path is no index. -/
  | pathComponent (component : String)
  /-- A number is negative, infinite or undefined. -/
  | notFinite (value : Float)
  /-- A number has more than 256 bits. -/
  | not256Bits (value : Float)
  /-- A difficulty is not positive. -/
  | difficulty (value : Float)
  /-- Compact bits have the sign set. -/
  | negativeTarget (bits : UInt32)
  /-- Compact bits stand for more than 256 bits. -/
  | targetOverflow (bits : UInt32)
  /-- The zero target has no difficulty. -/
  | zeroTarget
deriving DecidableEq

/-- A failed operation's cause. -/
inductive Error where
  /-- Bytes or text do not encode a value. -/
  | decoding (fault : DecodingFault)
  /-- A text or a sequence of tokens is not a script. -/
  | parsing (fault : ParsingFault)
  /-- A script is not of the kind an operation requires. -/
  | scriptType (fault : TypeFault)
  /-- A script cannot be executed further. -/
  | execution (fault : ExecutionFault)
  /-- An input cannot be signed. -/
  | signing (fault : SigningFault)
  /-- An argument lies outside of the domain of an operation. -/
  | domain (fault : DomainFault)
deriving DecidableEq

/-- The wording of a decoding fault. -/
def DecodingFault.message : DecodingFault → String
  | .hex cause => "invalid hex: " ++ cause.message
  | .base58 cause => "invalid base58check: " ++ cause.message
  | .endOfData wanted offset available =>
    s!"unexpected end of data: wanted {wanted} bytes at offset {offset}, {available} available"
  | .hashLength length => s!"hash must be 32 bytes, got {length}"
  | .addressLength length => s!"address payload must be 21 bytes, got {length}"
  | .addressVersion version => "unknown address version 0x" ++ Numeral.hex 2 version.toNat
  | .unknownOpcode byte offset =>
    "unknown opcode 0x" ++ Numeral.hex 2 byte.toNat ++ s!" at offset {offset}"
  | .not256Bit text => "'" ++ text ++ "' is not a 256-bit hex number"
  | .signatureLength length => s!"compact signature must be 64 bytes, got {length}"
  | .privateKeyLength length => s!"private key must be 32 bytes, got {length}"
  | .walletKeyLength length => s!"WIF payload must be 33 or 34 bytes, got {length}"
  | .walletKeyVersion version => "unknown WIF version 0x" ++ Numeral.hex 2 version.toNat
  | .publicKeyHeader header length =>
    "bad public key encoding: prefix 0x" ++ Numeral.hex 2 header.toNat ++ s!", {length} bytes"
  | .publicKeyEmpty => "empty public key"
  | .extendedKeyLength length => s!"extended key must be 78 bytes, got {length}"
  | .extendedKeyVersion version =>
    "unknown extended key version 0x" ++ Numeral.hex 8 version.toNat
  | .privateMaterial => "private key material must start with 0x00"
  | .publicMaterial => "public key material must be a compressed point"
  | .notCoinbase => "input does not spend the null outpoint"
  | .trailingBytes count => s!"{count} trailing bytes after transaction"

/-- The wording of a parsing fault. -/
def ParsingFault.message : ParsingFault → String
  | .unknownMnemonic word => "unknown opcode '" ++ word ++ "'"
  | .emptyPush => "cannot push an empty byte string; use OP_0"
  | .pushCapacity length kind => s!"{length} bytes cannot be pushed with " ++ kind.name
  | .notHexWord word => "expected 0x<hex>, found '" ++ word ++ "'"
  | .badHexWord word cause => "invalid hex '" ++ word ++ "': " ++ cause.message
  | .lengthMissing op => op.name ++ " is missing its length"
  | .lengthNotHex op word => op.name ++ " length must be 0x<hex>, found '" ++ word ++ "'"
  | .badLength op word => "invalid " ++ op.name ++ " length '" ++ word ++ "'"
  | .dataMissing op => op.name ++ " is missing its data"
  | .lengthMismatch op declared actual =>
    op.name ++ s!" declares {declared} bytes but carries {actual}"
  | .nestedTooDeep limit => s!"conditionals nested deeper than {limit}"
  | .strayElse => "OP_ELSE without matching OP_IF/OP_NOTIF"
  | .secondElse => "more than one OP_ELSE in a conditional"
  | .strayEndIf => "OP_ENDIF without matching OP_IF/OP_NOTIF"
  | .missingEndIf => "No matching OP_ENDIF"

/-- The wording of a type fault. -/
def TypeFault.message : TypeFault → String
  | .notMultisigRedeem => "script is not a multisig redeem script"
  | .notMultisigSignatures => "script is not a multisig signature script"
  | .notSignatureAndKey => "script is not a P2PKH signature script"

/-- The wording of an execution fault. -/
def ExecutionFault.message : ExecutionFault → String
  | .numberTooLong length limit => s!"numeric operand of {length} bytes exceeds {limit} bytes"
  | .numberTooLarge => "numeric operand too large"
  | .inputOutOfRange index inputs => s!"input index {index} out of range for {inputs} inputs"
  | .nestedTooDeep => "conditional nesting too deep"
  | .noSavedStack => "stack must be copied before it can be restored"
  | .emptyStack => "stack is empty"
  | .tooManyItems count => s!"too many items ({count}) on the stack"
  | .tooFewOperands needed => s!"stack has fewer than {needed} operands"
  | .noTransaction => "no transaction found"
  | .noSubScript => "sub_script must be set"
  | .emptyAltStack => "alt-stack is empty"
  | .itemOutOfRange op index => op.name ++ s!" index {index} out of range"
  | .structuralOpcode op => "unexpected " ++ op.name ++ " in parsed script"
  | .keyCount count => s!"public key count {count} out of range"
  | .signatureCount count keys => s!"signature count {count} out of range for {keys} keys"
  | .missingExtraItem => "missing extra CHECKMULTISIG element"

/-- The wording of a signing fault. -/
def SigningFault.message : SigningFault → String
  | .tooManySignatures signatures keys =>
    s!"{signatures} signatures exceed the {keys} keys of the redeem script"
  | .keyNotInScript => "public key does not match any key in the redeem script"
  | .noKeyHash => "no public key hash found in sub_script"
  | .keyHashMismatch => "address derived from private key does not match sub_script"
  | .hashTypeTooLarge hashType =>
    "hash type 0x" ++ Numeral.hex 1 hashType.toNat ++ " does not fit a byte"
  | .unsupportedScript => "only P2PKH scripts and multisig redeem scripts can be signed"
  | .redeemMismatch => "redeem script in the signature script does not match sub_script"
  | .alreadyComplete present required =>
    s!"input already carries {present} of {required} required signatures"
  | .emptySignature => "empty signature in signature script"
  | .hashTypeMismatch => "hash type does not match that of the existing signatures"
  | .foreignSignature => "existing signature does not match any public key"
  | .alreadySigned => "key has already signed this input"
  | .noRecoveryId => "signature is missing its recovery id"

/-- The wording of a fault in an encoded signature. -/
def DerFault.message : DerFault → String
  | .tooShort => "too short"
  | .noSequence => "missing sequence marker"
  | .sequenceLength => "sequence length does not match"
  | .noFirstInteger => "missing integer marker for r"
  | .firstLength => "bad r length"
  | .noSecondInteger => "missing integer marker for s"
  | .secondLength => "bad s length"
  | .negative => "negative integer"
  | .padded => "excessively padded integer"
  | .outOfRange => "integer out of range"
  | .zero => "integer is zero"

/-- The wording of a domain fault. -/
def DomainFault.message : DomainFault → String
  | .unrecoverable => "secp256k1: malformed signature"
  | .insertIndex index => s!"insert index {index} out of range"
  | .deleteIndex index => s!"delete index {index} out of range"
  | .tokenIndex index => s!"token index {index} out of range"
  | .multisigParameters required keys =>
    s!"invalid multisig parameters: {required} of {keys}"
  | .notPublicKey length => s!"{length} bytes is not a public key"
  | .inputOutOfRange index inputs => s!"input index {index} out of range for {inputs} inputs"
  | .der cause => "invalid DER signature: " ++ cause.message
  | .zeroComponent => "r and s must be in [1, n-1]"
  | .recoveryId => "recovery id must be 0..=3"
  | .noRecoveryId => "signature has no recovery id"
  | .scalarLength length => s!"scalar of {length} bytes is too long"
  | .scalarRange => "scalar is not below the curve order"
  | .notOnCurve => "point is not on the curve"
  | .noSuchX => "x coordinate is not on the curve"
  | .digestLength length => s!"digest must be 32 bytes, got {length}"
  | .zeroKey => "private key must be in [1, n-1]"
  | .infinityKey => "public key cannot be the point at infinity"
  | .keyNotOnCurve => "public key is not on the curve"
  | .derivedRange => "derived IL is not below the curve order"
  | .masterMetadata => "a depth-0 key must have a zero parent fingerprint and index"
  | .maximumDepth => "maximum derivation depth reached"
  | .childZero index => "child key at index " ++ toString index.toNat ++ " is zero"
  | .childInfinity index =>
    "child key at index " ++ toString index.toNat ++ " is the point at infinity"
  | .hardenedFromPublic => "cannot derive a hardened child from a public key"
  | .rootNotMaster => "root key must be a master key when the path starts with 'm'"
  | .pathComponent component => "invalid path component '" ++ component ++ "'"
  | .notFinite value => Decimal.plain value ++ " is not a non-negative finite number"
  | .not256Bits value => Decimal.plain value ++ " does not fit in 256 bits"
  | .difficulty value => "difficulty must be positive, got " ++ Decimal.plain value
  | .negativeTarget bits => "bits 0x" ++ Numeral.hex 8 bits.toNat ++ " encode a negative target"
  | .targetOverflow bits => "bits 0x" ++ Numeral.hex 8 bits.toNat ++ " overflow 256 bits"
  | .zeroTarget => "zero target has no difficulty"

/-- The wording of an error: the activity, then the cause. -/
def Error.message : Error → String
  | .decoding fault => "Deserialization failed: " ++ fault.message
  | .parsing fault => "Script parsing failed: " ++ fault.message
  | .scriptType fault => "Script type mismatch: " ++ fault.message
  | .execution fault => "Script interpreter error: " ++ fault.message
  | .signing fault => "Signing failed: " ++ fault.message
  | .domain fault => "Domain error: " ++ fault.message

/-- Reads hexadecimal text. -/
def decodeHex (text : String) : Except Error Bytes :=
  (Hex.decode text).mapError (.decoding ∘ .hex)

/-- Reads Base58Check text. -/
def decodeBase58 (text : String) : Except Error Bytes :=
  (Base58.decodeChecked text).mapError (.decoding ∘ .base58)

end Bitcoin
