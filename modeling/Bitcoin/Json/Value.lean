import Bitcoin.Text.Numeral

/-!
# Structured data

A `Json` value is a constant, a number, a string, a list of values, or a list of named
values. `Json.render` writes it without blanks.
-/

namespace Bitcoin

/-- Structured data. A string that holds half of a surrogate pair denotes no text. -/
inductive Json where
  | null
  | bool (b : Bool)
  /-- A number without point and exponent; minus zero is none of these. -/
  | integer (n : Int)
  /-- Any other number, as it is written. -/
  | decimal (literal : String)
  | string (text? : Option String)
  | array (items : List Json)
  | object (members : List (Option String × Json))

namespace Json

/-- The string with a given text. -/
def text (s : String) : Json :=
  .string (some s)

/-- A number that is not negative. -/
def nat (n : Nat) : Json :=
  .integer n

/-- Values with their names. -/
def struct (members : List (String × Json)) : Json :=
  .object (members.map fun (name, value) => (some name, value))

/-- The escape of a character in a string, if it needs one. -/
def escape? (c : Char) : Option String :=
  if c = '"' then some "\\\""
  else if c = '\\' then some "\\\\"
  else if c = '\n' then some "\\n"
  else if c = '\r' then some "\\r"
  else if c = '\t' then some "\\t"
  else if c = '\x08' then some "\\b"
  else if c = '\x0c' then some "\\f"
  else if c.toNat < 0x20 then some ("\\u" ++ Numeral.hex 4 c.toNat)
  else none

/-- A string with its quotes. A string that denotes no text is written as the half of a
pair. -/
def renderString : Option String → String
  | none => "\"\\ud800\""
  | some s =>
    s.foldl (fun written c => written ++ (escape? c).getD (String.singleton c)) "\"" ++ "\""

mutual

/-- The written form of a value. -/
def render : Json → String
  | .null => "null"
  | .bool true => "true"
  | .bool false => "false"
  | .integer n => toString n
  | .decimal literal => literal
  | .string text? => renderString text?
  | .array items => "[" ++ ",".intercalate (renderItems items) ++ "]"
  | .object members => "\x7b" ++ ",".intercalate (renderMembers members) ++ "\x7d"

/-- The written forms of some values. -/
def renderItems : List Json → List String
  | [] => []
  | item :: rest => item.render :: renderItems rest

/-- The written forms of some named values. -/
def renderMembers : List (Option String × Json) → List String
  | [] => []
  | (name, value) :: rest =>
    (renderString name ++ ":" ++ value.render) :: renderMembers rest

end

end Json

end Bitcoin
