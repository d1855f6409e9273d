/-!
# Opcodes

The named operations of the script language, in the order of their bytes. `Opcode.toByte`
is the byte of one in a serialized script and `Opcode.name` its mnemonic; `ofByte?` and
`ofName?` go back. The bytes from 1 to 75 name no opcode: they introduce data.
-/

namespace Bitcoin

/-- A named operation. -/
inductive Opcode where
  | zero | pushData1 | pushData2 | pushData4 | negativeOne | reserved | one | two | three
  | four | five | six | seven | eight | nine | ten | eleven | twelve | thirteen | fourteen
  | fifteen | sixteen | nop | ver | ifTrue | ifFalse | verIf | verNotIf | otherwise | endIf
  | verify | returnFail | toAltStack | fromAltStack | drop2 | dup2 | dup3 | over2 | rot2
  | swap2 | ifDup | depth | drop | dup | nip | over | pick | roll | rot | swap | tuck | cat
  | substr | left | right | size | invert | bitAnd | bitOr | bitXor | equal | equalVerify
  | reserved1 | reserved2 | add1 | sub1 | mul2 | div2 | negate | abs | logicalNot | notZero
  | add | sub | mul | div | mod | shiftLeft | shiftRight | boolAnd | boolOr | numEqual
  | numEqualVerify | numNotEqual | lessThan | greaterThan | lessOrEqual | greaterOrEqual
  | min | max | within | ripemd160 | sha1 | sha256 | hash160 | hash256 | codeSeparator
  | checkSig | checkSigVerify | checkMultisig | checkMultisigVerify | nop1
  | checkLockTimeVerify | nop3 | nop4 | nop5 | nop6 | nop7 | nop8 | nop9 | nop10
deriving DecidableEq

namespace Opcode

/-- Every opcode, in the order of their bytes. -/
def all : List Opcode :=
  [.zero, .pushData1, .pushData2, .pushData4, .negativeOne, .reserved, .one, .two, .three,
   .four, .five, .six, .seven, .eight, .nine, .ten, .eleven, .twelve, .thirteen, .fourteen,
   .fifteen, .sixteen, .nop, .ver, .ifTrue, .ifFalse, .verIf, .verNotIf, .otherwise,
   .endIf, .verify, .returnFail, .toAltStack, .fromAltStack, .drop2, .dup2, .dup3, .over2,
   .rot2, .swap2, .ifDup, .depth, .drop, .dup, .nip, .over, .pick, .roll, .rot, .swap,
   .tuck, .cat, .substr, .left, .right, .size, .invert, .bitAnd, .bitOr, .bitXor, .equal,
   .equalVerify, .reserved1, .reserved2, .add1, .sub1, .mul2, .div2, .negate, .abs,
   .logicalNot, .notZero, .add, .sub, .mul, .div, .mod, .shiftLeft, .shiftRight, .boolAnd,
   .boolOr, .numEqual, .numEqualVerify, .numNotEqual, .lessThan, .greaterThan,
   .lessOrEqual, .greaterOrEqual, .min, .max, .within, .ripemd160, .sha1, .sha256,
   .hash160, .hash256, .codeSeparator, .checkSig, .checkSigVerify, .checkMultisig,
   .checkMultisigVerify, .nop1, .checkLockTimeVerify, .nop3, .nop4, .nop5, .nop6, .nop7,
   .nop8, .nop9, .nop10]

/-- The byte of an opcode. -/
def toByte : Opcode → UInt8
  | .zero => 0x00
  | .pushData1 => 0x4c
  | .pushData2 => 0x4d
  | .pushData4 => 0x4e
  | .negativeOne => 0x4f
  | .reserved => 0x50
  | .one => 0x51
  | .two => 0x52
  | .three => 0x53
  | .four => 0x54
  | .five => 0x55
  | .six => 0x56
  | .seven => 0x57
  | .eight => 0x58
  | .nine => 0x59
  | .ten => 0x5a
  | .eleven => 0x5b
  | .twelve => 0x5c
  | .thirteen => 0x5d
  | .fourteen => 0x5e
  | .fifteen => 0x5f
  | .sixteen => 0x60
  | .nop => 0x61
  | .ver => 0x62
  | .ifTrue => 0x63
  | .ifFalse => 0x64
  | .verIf => 0x65
  | .verNotIf => 0x66
  | .otherwise => 0x67
  | .endIf => 0x68
  | .verify => 0x69
  | .returnFail => 0x6a
  | .toAltStack => 0x6b
  | .fromAltStack => 0x6c
  | .drop2 => 0x6d
  | .dup2 => 0x6e
  | .dup3 => 0x6f
  | .over2 => 0x70
  | .rot2 => 0x71
  | .swap2 => 0x72
  | .ifDup => 0x73
  | .depth => 0x74
  | .drop => 0x75
  | .dup => 0x76
  | .nip => 0x77
  | .over => 0x78
  | .pick => 0x79
  | .roll => 0x7a
  | .rot => 0x7b
  | .swap => 0x7c
  | .tuck => 0x7d
  | .cat => 0x7e
  | .substr => 0x7f
  | .left => 0x80
  | .right => 0x81
  | .size => 0x82
  | .invert => 0x83
  | .bitAnd => 0x84
  | .bitOr => 0x85
  | .bitXor => 0x86
  | .equal => 0x87
  | .equalVerify => 0x88
  | .reserved1 => 0x89
  | .reserved2 => 0x8a
  | .add1 => 0x8b
  | .sub1 => 0x8c
  | .mul2 => 0x8d
  | .div2 => 0x8e
  | .negate => 0x8f
  | .abs => 0x90
  | .logicalNot => 0x91
  | .notZero => 0x92
  | .add => 0x93
  | .sub => 0x94
  | .mul => 0x95
  | .div => 0x96
  | .mod => 0x97
  | .shiftLeft => 0x98
  | .shiftRight => 0x99
  | .boolAnd => 0x9a
  | .boolOr => 0x9b
  | .numEqual => 0x9c
  | .numEqualVerify => 0x9d
  | .numNotEqual => 0x9e
  | .lessThan => 0x9f
  | .greaterThan => 0xa0
  | .lessOrEqual => 0xa1
  | .greaterOrEqual => 0xa2
  | .min => 0xa3
  | .max => 0xa4
  | .within => 0xa5
  | .ripemd160 => 0xa6
  | .sha1 => 0xa7
  | .sha256 => 0xa8
  | .hash160 => 0xa9
  | .hash256 => 0xaa
  | .codeSeparator => 0xab
  | .checkSig => 0xac
  | .checkSigVerify => 0xad
  | .checkMultisig => 0xae
  | .checkMultisigVerify => 0xaf
  | .nop1 => 0xb0
  | .checkLockTimeVerify => 0xb1
  | .nop3 => 0xb2
  | .nop4 => 0xb3
  | .nop5 => 0xb4
  | .nop6 => 0xb5
  | .nop7 => 0xb6
  | .nop8 => 0xb7
  | .nop9 => 0xb8
  | .nop10 => 0xb9

/-- The mnemonic of an opcode. -/
def name : Opcode → String
  | .zero => "OP_0"
  | .pushData1 => "OP_PUSHDATA1"
  | .pushData2 => "OP_PUSHDATA2"
  | .pushData4 => "OP_PUSHDATA4"
  | .negativeOne => "OP_1NEGATE"
  | .reserved => "OP_RESERVED"
  | .one => "OP_1"
  | .two => "OP_2"
  | .three => "OP_3"
  | .four => "OP_4"
  | .five => "OP_5"
  | .six => "OP_6"
  | .seven => "OP_7"
  | .eight => "OP_8"
  | .nine => "OP_9"
  | .ten => "OP_10"
  | .eleven => "OP_11"
  | .twelve => "OP_12"
  | .thirteen => "OP_13"
  | .fourteen => "OP_14"
  | .fifteen => "OP_15"
  | .sixteen => "OP_16"
  | .nop => "OP_NOP"
  | .ver => "OP_VER"
  | .ifTrue => "OP_IF"
  | .ifFalse => "OP_NOTIF"
  | .verIf => "OP_VERIF"
  | .verNotIf => "OP_VERNOTIF"
  | .otherwise => "OP_ELSE"
  | .endIf => "OP_ENDIF"
  | .verify => "OP_VERIFY"
  | .returnFail => "OP_RETURN"
  | .toAltStack => "OP_TOALTSTACK"
  | .fromAltStack => "OP_FROMALTSTACK"
  | .drop2 => "OP_2DROP"
  | .dup2 => "OP_2DUP"
  | .dup3 => "OP_3DUP"
  | .over2 => "OP_2OVER"
  | .rot2 => "OP_2ROT"
  | .swap2 => "OP_2SWAP"
  | .ifDup => "OP_IFDUP"
  | .depth => "OP_DEPTH"
  | .drop => "OP_DROP"
  | .dup => "OP_DUP"
  | .nip => "OP_NIP"
  | .over => "OP_OVER"
  | .pick => "OP_PICK"
  | .roll => "OP_ROLL"
  | .rot => "OP_ROT"
  | .swap => "OP_SWAP"
  | .tuck => "OP_TUCK"
  | .cat => "OP_CAT"
  | .substr => "OP_SUBSTR"
  | .left => "OP_LEFT"
  | .right => "OP_RIGHT"
  | .size => "OP_SIZE"
  | .invert => "OP_INVERT"
  | .bitAnd => "OP_AND"
  | .bitOr => "OP_OR"
  | .bitXor => "OP_XOR"
  | .equal => "OP_EQUAL"
  | .equalVerify => "OP_EQUALVERIFY"
  | .reserved1 => "OP_RESERVED1"
  | .reserved2 => "OP_RESERVED2"
  | .add1 => "OP_1ADD"
  | .sub1 => "OP_1SUB"
  | .mul2 => "OP_2MUL"
  | .div2 => "OP_2DIV"
  | .negate => "OP_NEGATE"
  | .abs => "OP_ABS"
  | .logicalNot => "OP_NOT"
  | .notZero => "OP_0NOTEQUAL"
  | .add => "OP_ADD"
  | .sub => "OP_SUB"
  | .mul => "OP_MUL"
  | .div => "OP_DIV"
  | .mod => "OP_MOD"
  | .shiftLeft => "OP_LSHIFT"
  | .shiftRight => "OP_RSHIFT"
  | .boolAnd => "OP_BOOLAND"
  | .boolOr => "OP_BOOLOR"
  | .numEqual => "OP_NUMEQUAL"
  | .numEqualVerify => "OP_NUMEQUALVERIFY"
  | .numNotEqual => "OP_NUMNOTEQUAL"
  | .lessThan => "OP_LESSTHAN"
  | .greaterThan => "OP_GREATERTHAN"
  | .lessOrEqual => "OP_LESSTHANOREQUAL"
  | .greaterOrEqual => "OP_GREATERTHANOREQUAL"
  | .min => "OP_MIN"
  | .max => "OP_MAX"
  | .within => "OP_WITHIN"
  | .ripemd160 => "OP_RIPEMD160"
  | .sha1 => "OP_SHA1"
  | .sha256 => "OP_SHA256"
  | .hash160 => "OP_HASH160"
  | .hash256 => "OP_HASH256"
  | .codeSeparator => "OP_CODESEPARATOR"
  | .checkSig => "OP_CHECKSIG"
  | .checkSigVerify => "OP_CHECKSIGVERIFY"
  | .checkMultisig => "OP_CHECKMULTISIG"
  | .checkMultisigVerify => "OP_CHECKMULTISIGVERIFY"
  | .nop1 => "OP_NOP1"
  | .checkLockTimeVerify => "OP_CHECKLOCKTIMEVERIFY"
  | .nop3 => "OP_NOP3"
  | .nop4 => "OP_NOP4"
  | .nop5 => "OP_NOP5"
  | .nop6 => "OP_NOP6"
  | .nop7 => "OP_NOP7"
  | .nop8 => "OP_NOP8"
  | .nop9 => "OP_NOP9"
  | .nop10 => "OP_NOP10"

/-- The opcode with a given byte. -/
def ofByte? (byte : UInt8) : Option Opcode :=
  all.find? (·.toByte = byte)

/-- The opcode with a given mnemonic; three of them have a second one. -/
def ofName? (name : String) : Option Opcode :=
  if name = "OP_FALSE" then some .zero
  else if name = "OP_TRUE" then some .one
  else if name = "OP_NOP2" then some .checkLockTimeVerify
  else all.find? (·.name = name)

/-- The opcode that pushes a number from 0 to 16. -/
def ofSmallInt? (n : Nat) : Option Opcode :=
  if n = 0 then some .zero
  else if n ≤ 16 then ofByte? (UInt8.ofNat (0x50 + n))
  else none

/-- The number from 0 to 16 that an opcode pushes. -/
def smallInt? (op : Opcode) : Option Nat :=
  if op = .zero then some 0
  else if 0x51 ≤ op.toByte ∧ op.toByte ≤ 0x60 then some (op.toByte.toNat - 0x50)
  else none

/-- Whether the opcode introduces data with an explicit length. -/
def isPushData : Opcode → Bool
  | .pushData1 | .pushData2 | .pushData4 => true
  | _ => false

/-- Whether the opcode was taken out of use; a script that executes one fails. -/
def isDisabled : Opcode → Bool
  | .cat | .substr | .left | .right | .invert | .bitAnd | .bitOr | .bitXor | .mul2 | .div2
  | .mul | .div | .mod | .shiftLeft | .shiftRight => true
  | _ => false

/-- Whether the opcode never had a meaning; a script that executes one fails. -/
def isReserved : Opcode → Bool
  | .reserved | .ver | .verIf | .verNotIf | .reserved1 | .reserved2 => true
  | _ => false

/-- Whether the opcode opens a conditional. -/
def isConditional : Opcode → Bool
  | .ifTrue | .ifFalse => true
  | _ => false

end Opcode

end Bitcoin
