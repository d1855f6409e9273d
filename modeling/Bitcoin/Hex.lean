import Bitcoin.Bytes
import Bitcoin.Text.Blank
import Bitcoin.Text.Quoted

/-!
# Hexadecimal text

`Hex.encode` writes two lower-case digits for each byte. `Hex.decode` reads digits of
either case, and refuses a text with an odd number of bytes before it looks at any digit;
of the bytes that are no digits it reports the first.
-/

namespace Bitcoin.Hex

/-- Why a text is not the hexadecimal form of a byte string. -/
inductive DecodeError where
  /-- The text has an odd number of bytes. -/
  | oddLength
  /-- The byte at an index is not a digit. -/
  | badDigit (byte : UInt8) (index : Nat)
  /-- The text does not have the number of digits that was asked for. -/
  | wrongLength
deriving DecidableEq

/-- The wording of a refusal; a byte is shown as the character of that code. -/
def DecodeError.message : DecodeError → String
  | .oddLength => "Odd number of digits"
  | .badDigit byte index =>
    "Invalid character " ++ Text.quotedChar (Char.ofNat byte.toNat) ++ " at position "
      ++ toString index
  | .wrongLength => "Invalid string length"

/-- The two digits of a byte. -/
def encodeByte (b : UInt8) : List Char :=
  [Numeral.hexDigit (b.toNat / 16), Numeral.hexDigit (b.toNat % 16)]

/-- The characters of the hexadecimal form of a byte string. -/
def encodeChars (bytes : Bytes) : List Char :=
  bytes.flatMap encodeByte

/-- The hexadecimal form of a byte string, in lower case. -/
def encode (bytes : Bytes) : String :=
  String.ofList (encodeChars bytes)

/-- The value of the digit with an ASCII code, which stands at `index`. -/
def digit (code : UInt8) (index : Nat) : Except DecodeError Nat :=
  match Numeral.digitValue? 16 (Char.ofNat code.toNat) with
  | some d => .ok d
  | none => .error (.badDigit code index)

/-- Decodes the digit codes from `index` on, after the bytes `done`, which are given
backwards. -/
def decodeFrom (done : Bytes) (index : Nat) : Bytes → Except DecodeError Bytes
  | [] => .ok done.reverse
  | [_] => .error .oddLength
  | high :: low :: rest => do
    let h ← digit high index
    let l ← digit low (index + 1)
    decodeFrom (UInt8.ofNat (16 * h + l) :: done) (index + 2) rest

/-- The byte string that a text of digits denotes. -/
def decodeChars (text : List Char) : Except DecodeError Bytes :=
  let codes := Text.utf8 text
  if codes.length % 2 = 1 then .error .oddLength else decodeFrom [] 0 codes

/-- The byte string that a text of digits denotes. -/
def decode (text : String) : Except DecodeError Bytes :=
  decodeChars text.toList

end Bitcoin.Hex
