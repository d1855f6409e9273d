import Bitcoin.Digest
import Bitcoin.Text.Blank
import Bitcoin.Text.Quoted

/-!
# Base58Check

`Base58.encode` writes a byte string as a number in base 58, with one symbol `1` for each
leading zero byte. `Base58.encodeChecked` appends the first four bytes of the double
SHA-256 before it does so, and `Base58.decodeChecked` verifies and removes them.
-/

namespace Bitcoin.Base58

/-- Why a text is not the Base58Check form of a byte string. -/
inductive DecodeError where
  /-- The ASCII character at an index is not a symbol. -/
  | badSymbol (symbol : Char) (index : Nat)
  /-- A character beyond ASCII starts at an index. -/
  | nonAscii (index : Nat)
  /-- Fewer than four bytes were decoded. -/
  | noChecksum
  /-- The checksum of the payload is not the one that follows it. -/
  | badChecksum (calculated expected : Bytes)
deriving DecidableEq

/-- Bytes in decimal, between brackets. -/
def showBytes (bytes : Bytes) : String :=
  "[" ++ ", ".intercalate (bytes.map fun b => toString b.toNat) ++ "]"

/-- The wording of a refusal. -/
def DecodeError.message : DecodeError → String
  | .badSymbol symbol index =>
    "provided string contained invalid character " ++ Text.quotedChar symbol ++ " at byte "
      ++ toString index
  | .nonAscii index =>
    "provided string contained non-ascii character starting at byte " ++ toString index
  | .noChecksum => "provided string is too small to contain a checksum"
  | .badChecksum calculated expected =>
    "invalid checksum, calculated checksum: '" ++ showBytes calculated
      ++ "', expected checksum: " ++ showBytes expected

/-- The fifty-eight symbols, in the order of their values: no zero, no capital i or o and
no small l. -/
def alphabet : List Char :=
  "123456789ABCDEFGHJKLMNPQRSTUVWXYZabcdefghijkmnopqrstuvwxyz".toList

/-- The symbol of a value below 58. -/
def symbol (value : Nat) : Char :=
  alphabet.getD value '1'

/-- The value of a symbol. -/
def value? (c : Char) : Option Nat :=
  alphabet.findIdx? (· = c)

/-- The symbols of a byte string. -/
def encodeChars (bytes : Bytes) : List Char :=
  (bytes.takeWhile (· == 0)).map (fun _ => '1')
    ++ (Numeral.digits 58 (Bytes.toNatBE bytes)).map symbol

/-- The values of the symbols of a text, whose first byte has the given index. -/
def values : (index : Nat) → List Char → Except DecodeError (List Nat)
  | _, [] => .ok []
  | index, c :: rest =>
    match value? c with
    | some value => do
      let later ← values (index + 1) rest
      .ok (value :: later)
    | none => .error (if c.toNat < 128 then .badSymbol c index else .nonAscii index)

/-- The byte string that a text of symbols denotes. -/
def decodeChars (text : List Char) : Except DecodeError Bytes := do
  let vs ← values 0 text
  let zeros := (vs.takeWhile (· == 0)).map fun _ => (0 : UInt8)
  .ok (zeros ++ (Numeral.digits 256 (Numeral.ofDigits 58 vs)).map UInt8.ofNat)

/-- The bytes that guard a payload against misreading. -/
def checksum (payload : Bytes) : Bytes :=
  (Digest.hash256 payload).toList.take 4

/-- The Base58Check form of a payload. -/
def encodeChecked (payload : Bytes) : String :=
  String.ofList (encodeChars (payload ++ checksum payload))

/-- The payload a Base58Check text denotes. -/
def decodeChecked (text : String) : Except DecodeError Bytes := do
  let bytes ← decodeChars text.toList
  if bytes.length < 4 then .error .noChecksum
  else
    let payload := bytes.take (bytes.length - 4)
    let expected := bytes.drop (bytes.length - 4)
    if checksum payload = expected then .ok payload
    else .error (.badChecksum (checksum payload) expected)

end Bitcoin.Base58
