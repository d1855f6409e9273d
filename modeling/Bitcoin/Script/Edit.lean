import Bitcoin.Script.Basic

/-!
# Editing scripts

A script is edited by editing its tokens. The edited tokens must again have balanced
conditionals; the functions give the edited script, and never change one in part.
-/

namespace Bitcoin.Script

/-- The script without the occurrences of an opcode. -/
def removeOp (script : Script) (op : Opcode) : Except Error Script := do
  let tokens ← script.tokens
  ofTokens (tokens.filter (·.opcode? ≠ some op))

/-- The script without the pushes of some data, in whatever form. -/
def removePush (script : Script) (data : Bytes) : Except Error Script := do
  let tokens ← script.tokens
  ofTokens (tokens.filter (·.data? ≠ some data))

/-- The script with a token in front of the one at an index. -/
def insert (script : Script) (index : Nat) (token : Token) : Except Error Script := do
  let tokens ← script.tokens
  if index > tokens.length then .error (.domain (.insertIndex index))
  else ofTokens (tokens.take index ++ token :: tokens.drop index)

/-- The script with a token at its end. -/
def append (script : Script) (token : Token) : Except Error Script := do
  let tokens ← script.tokens
  ofTokens (tokens ++ [token])

/-- The script without the token at an index, and that token. -/
def delete (script : Script) (index : Nat) : Except Error (Script × Token) := do
  let tokens ← script.tokens
  match tokens[index]? with
  | none => .error (.domain (.deleteIndex index))
  | some token =>
    let edited ← ofTokens (tokens.eraseIdx index)
    .ok (edited, token)

/-- The script with another token at an index, and the token that was there. -/
def set (script : Script) (index : Nat) (token : Token) : Except Error (Script × Token) := do
  let tokens ← script.tokens
  match tokens[index]? with
  | none => .error (.domain (.tokenIndex index))
  | some replaced =>
    let edited ← ofTokens (tokens.set index token)
    .ok (edited, replaced)

end Bitcoin.Script
