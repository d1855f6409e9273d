import Bitcoin.Script.Basic

/-!
# Templates

A template describes scripts token by token: each place asks for a certain opcode or for
any push.
-/

namespace Bitcoin

/-- What a template asks for at one place. -/
inductive Placeholder where
  /-- A certain opcode. -/
  | op (op : Opcode)
  /-- Any push. -/
  | data
deriving DecidableEq

/-- Whether a token is what a place asks for. -/
def Placeholder.accepts : Placeholder → Token → Bool
  | .op wanted, .op found => wanted = found
  | .data, .push _ => true
  | _, _ => false

/-- Whether a script has exactly the tokens that a template asks for. -/
def Script.fits (script : Script) (template : List Placeholder) : Bool :=
  match script.tokens with
  | .error _ => false
  | .ok tokens =>
    tokens.length == template.length
      && (template.zip tokens).all fun (place, token) => place.accepts token

end Bitcoin
