import Bitcoin.Text.Numeral

/-!
# Quoted characters

`quotedChar` is the form in which a message shows a single character: between
apostrophes, with an escape where the character could not be read.
-/

namespace Bitcoin.Text

/-- The escape of a character between apostrophes, if it needs one. Only characters up to
U+00FF occur; of these the controls, the no-break space and the soft hyphen are shown by
their number. -/
def escape? (c : Char) : Option String :=
  if c = '\x00' then some "\\0"
  else if c = '\t' then some "\\t"
  else if c = '\n' then some "\\n"
  else if c = '\r' then some "\\r"
  else if c = '\'' then some "\\'"
  else if c = '\\' then some "\\\\"
  else if c.toNat < 0x20 ∨ (0x7f ≤ c.toNat ∧ c.toNat ≤ 0xa0) ∨ c.toNat = 0xad then
    some ("\\u\x7b" ++ Numeral.hex 1 c.toNat ++ "\x7d")
  else none

/-- A character between apostrophes. -/
def quotedChar (c : Char) : String :=
  "'" ++ (escape? c).getD (String.singleton c) ++ "'"

end Bitcoin.Text
