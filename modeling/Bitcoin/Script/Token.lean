import Bitcoin.Script.Push
import Bitcoin.Wire.Reader

/-!
# Tokens

A script is a sequence of tokens, each an opcode or a push. `Token.encode` writes one, and
`Token.decodeAll` takes a byte string apart.
-/

namespace Bitcoin

/-- An element of a script. -/
inductive Token where
  | op (op : Opcode)
  | push (push : Push)
deriving DecidableEq

namespace Token

/-- The shortest push of a byte string. -/
def ofData (data : Bytes) : Except Error Token :=
  (Push.ofData data).map .push

/-- The opcode, if the token is one. -/
def opcode? : Token → Option Opcode
  | .op o => some o
  | .push _ => none

/-- The data, if the token is a push. -/
def data? : Token → Option Bytes
  | .op _ => none
  | .push p => some p.data

/-- The bytes of a token. -/
def encode : Token → Bytes
  | .op o => [o.toByte]
  | .push p => p.encode

/-- The bytes of a sequence of tokens. -/
def encodeAll (tokens : List Token) : Bytes :=
  tokens.flatMap encode

/-- The text of a token. -/
def text : Token → String
  | .op o => o.name
  | .push p => p.text

/-- Takes the data of a push whose form is known. -/
def readPush (kind : PushKind) : Reader Token := do
  let length ← Reader.natLE kind.lengthWidth
  let data ← Reader.take length
  return .push ⟨kind, data⟩

/-- Takes a token. -/
def read : Reader Token := do
  let start ← get
  let byte ← Reader.u8
  if 0x01 ≤ byte ∧ byte ≤ 0x4b then
    let data ← Reader.take byte.toNat
    return .push ⟨.inline, data⟩
  else match Opcode.ofByte? byte with
    | none => throw (.decoding (.unknownOpcode byte start.position))
    | some o => match PushKind.ofOpcode? o with
      | some kind => readPush kind
      | none => return .op o

/-- Takes tokens up to the end, behind those already taken, which are given backwards. A
token has at least one byte, so that the number of bytes bounds that of tokens. -/
def readAfter : (bound : Nat) → List Token → Reader (List Token)
  | 0, done => return done.reverse
  | bound + 1, done => do
    let cursor ← get
    if cursor.atEnd then return done.reverse
    else
      let token ← read
      readAfter bound (token :: done)

/-- The tokens of a byte string. -/
def decodeAll (bytes : Bytes) : Except Error (List Token) := do
  let (tokens, _) ← (readAfter bytes.length []).runOn bytes
  .ok tokens

end Token

end Bitcoin
