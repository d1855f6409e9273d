import Bitcoin.Json.Parser

/-!
# Records in structured data

A record is given by named values, among which others may stand, or by the bare values in
the order of the names. `Json.fields?` finds the values in either. The other functions read
the values of fields.
-/

namespace Bitcoin.Json

/-- The only value with a name. -/
def member? (members : List (String × Json)) (name : String) : Option Json :=
  match members.filter (·.1 == name) with
  | [(_, value)] => some value
  | _ => none

/-- The values of a record with the given names. -/
def fields? (names : List String) : Json → Option (List Json)
  | .array items => if items.length = names.length then some items else none
  | .object members => do
    let members ← members.mapM fun (name?, value) => name?.map fun name => (name, value)
    names.mapM (member? members)
  | _ => none

/-- The text of a string. -/
def text? : Json → Option String
  | .string text? => text?
  | _ => none

/-- An integer that is not negative and below a bound. -/
def natBelow? (bound : Nat) : Json → Option Nat
  | .integer n => if 0 ≤ n ∧ n < bound then some n.toNat else none
  | _ => none

/-- A word of 32 bits. -/
def uint32? (value : Json) : Option UInt32 :=
  (value.natBelow? UInt32.size).map UInt32.ofNat

/-- A word of 64 bits. -/
def uint64? (value : Json) : Option UInt64 :=
  (value.natBelow? UInt64.size).map UInt64.ofNat

/-- The items of a list. -/
def list? {α : Type} (item? : Json → Option α) : Json → Option (List α)
  | .array items => items.mapM item?
  | _ => none

end Bitcoin.Json
