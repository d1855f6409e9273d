import Bitcoin.Json.Value

/-!
# Reading structured data

`Json.parse?` reads a value with blanks around it and between its parts. It is strict: the
number of digits, the commas and the escapes must be as the grammar has them, and nothing
may follow the value.
-/

namespace Bitcoin.Json

/-- Whether a character is a blank between the parts of a value. -/
def isSpace (c : Char) : Bool :=
  c = ' ' || c = '\n' || c = '\t' || c = '\r'

/-- The text behind the blanks at its start. -/
def skipSpace (text : List Char) : List Char :=
  text.dropWhile isSpace

/-- The number that four hexadecimal digits denote. -/
def unit? (a b c d : Char) : Option Nat := do
  let ds ← [a, b, c, d].mapM (Numeral.digitValue? 16)
  some (Numeral.ofDigits 16 ds)

/-- The character of an escape of one letter. -/
def unescape? : Char → Option Char
  | '"' => some '"'
  | '\\' => some '\\'
  | '/' => some '/'
  | 'b' => some '\x08'
  | 'f' => some '\x0c'
  | 'n' => some '\n'
  | 'r' => some '\r'
  | 't' => some '\t'
  | _ => none

/-- The text of a sequence of code units behind the characters `done`, which are given
backwards. A unit is a character, or half of a surrogate pair whose other half must be next
to it. -/
def joinPairs? (done : List Char) : List Nat → Option (List Char)
  | [] => some done.reverse
  | [unit] =>
    if unit < 0xd800 ∨ 0xe000 ≤ unit then some (Char.ofNat unit :: done).reverse else none
  | unit :: next :: rest =>
    if unit < 0xd800 ∨ 0xe000 ≤ unit then joinPairs? (Char.ofNat unit :: done) (next :: rest)
    else if unit < 0xdc00 ∧ 0xdc00 ≤ next ∧ next < 0xe000 then
      joinPairs? (Char.ofNat (0x10000 + (unit - 0xd800) * 0x400 + (next - 0xdc00)) :: done) rest
    else none

/-- The code units of the rest of a string up to its closing quote, and what follows. The
units so far are given backwards. -/
def parseUnits (done : List Nat) : List Char → Option (List Nat × List Char)
  | [] => none
  | '"' :: rest => some (done.reverse, rest)
  | '\\' :: 'u' :: a :: b :: c :: d :: rest =>
    match unit? a b c d with
    | none => none
    | some unit => parseUnits (unit :: done) rest
  | '\\' :: c :: rest =>
    match unescape? c with
    | none => none
    | some c => parseUnits (c.toNat :: done) rest
  | c :: rest => if c.toNat < 0x20 then none else parseUnits (c.toNat :: done) rest

/-- The text of a string behind its opening quote, if it denotes one, and what follows. -/
def parseString (text : List Char) : Option (Option String × List Char) := do
  let (units, rest) ← parseUnits [] text
  some ((joinPairs? [] units).map String.ofList, rest)

/-- The digits at the start of a text, of which there must be some, and what follows. -/
def takeDigits? (text : List Char) : Option (List Char × List Char) :=
  let digits := text.takeWhile Char.isDigit
  if digits.isEmpty then none else some (digits, text.drop digits.length)

/-- The point and the digits of a fraction, if there is one, and what follows. -/
def takeFraction? : List Char → Option (List Char × List Char)
  | '.' :: rest => (takeDigits? rest).map fun (digits, rest) => ('.' :: digits, rest)
  | text => some ([], text)

/-- The sign in front of an exponent, if there is one, and what follows. -/
def takeSign : List Char → List Char × List Char
  | '+' :: rest => (['+'], rest)
  | '-' :: rest => (['-'], rest)
  | text => ([], text)

/-- An exponent, if there is one, and what follows. -/
def takeExponent? : List Char → Option (List Char × List Char)
  | [] => some ([], [])
  | c :: rest =>
    if c = 'e' ∨ c = 'E' then
      let (sign, rest) := takeSign rest
      (takeDigits? rest).map fun (digits, rest) => (c :: (sign ++ digits), rest)
    else some ([], c :: rest)

/-- A number without its sign, and what follows. -/
def parseUnsigned (negative : Bool) (text : List Char) : Option (Json × List Char) := do
  let (whole, rest) ← takeDigits? text
  if whole.head? = some '0' ∧ whole.length > 1 then none
  else
    let (fraction, rest) ← takeFraction? rest
    let (exponent, rest) ← takeExponent? rest
    let magnitude ← Numeral.parse? 10 (Nat.pow 10 whole.length) whole
    if fraction.isEmpty ∧ exponent.isEmpty ∧ ¬(negative ∧ magnitude = 0) then
      some (.integer (if negative then -(magnitude : Int) else magnitude), rest)
    else
      let sign := if negative then ['-'] else []
      some (.decimal (String.ofList (sign ++ whole ++ fraction ++ exponent)), rest)

mutual

/-- A value without blanks in front, and what follows, if `fuel` parts suffice. -/
def parseValue : (fuel : Nat) → List Char → Option (Json × List Char)
  | 0, _ => none
  | fuel + 1, text =>
    match text with
    | 'n' :: 'u' :: 'l' :: 'l' :: rest => some (.null, rest)
    | 't' :: 'r' :: 'u' :: 'e' :: rest => some (.bool true, rest)
    | 'f' :: 'a' :: 'l' :: 's' :: 'e' :: rest => some (.bool false, rest)
    | '"' :: rest => (parseString rest).map fun (text?, rest) => (.string text?, rest)
    | '[' :: rest =>
      match skipSpace rest with
      | ']' :: rest => some (.array [], rest)
      | first => (parseItems fuel first).map fun (items, rest) => (.array items, rest)
    | '\x7b' :: rest =>
      match skipSpace rest with
      | '\x7d' :: rest => some (.object [], rest)
      | first => (parseMembers fuel first).map fun (members, rest) => (.object members, rest)
    | '-' :: rest => parseUnsigned true rest
    | _ => parseUnsigned false text

/-- The items of a list from the next one on, and what follows the list. -/
def parseItems : (fuel : Nat) → List Char → Option (List Json × List Char)
  | 0, _ => none
  | fuel + 1, text =>
    match parseValue fuel text with
    | none => none
    | some (item, rest) =>
      match skipSpace rest with
      | ']' :: rest => some ([item], rest)
      | ',' :: rest => (parseItems fuel (skipSpace rest)).map fun (items, rest) =>
        (item :: items, rest)
      | _ => none

/-- The named values from the next one on, and what follows the last. -/
def parseMembers : (fuel : Nat) → List Char → Option (List (Option String × Json) × List Char)
  | 0, _ => none
  | fuel + 1, text =>
    match text with
    | '"' :: rest =>
      match parseString rest with
      | none => none
      | some (name, rest) =>
        match skipSpace rest with
        | ':' :: rest =>
          match parseValue fuel (skipSpace rest) with
          | none => none
          | some (value, rest) =>
            match skipSpace rest with
            | '\x7d' :: rest => some ([(name, value)], rest)
            | ',' :: rest => (parseMembers fuel (skipSpace rest)).map fun (members, rest) =>
              ((name, value) :: members, rest)
            | _ => none
        | _ => none
    | _ => none

end

/-- The value in a text. No value has more parts than twice its characters. -/
def parse? (text : String) : Option Json :=
  let chars := text.toList
  match parseValue (2 * chars.length + 1) (skipSpace chars) with
  | some (value, rest) => if (skipSpace rest).isEmpty then some value else none
  | none => none

end Bitcoin.Json
