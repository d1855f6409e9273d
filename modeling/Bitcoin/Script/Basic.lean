import Bitcoin.Network
import Bitcoin.Script.Assembly
import Bitcoin.Script.Program

/-!
# Scripts

A `Script` is a byte string that is taken apart when its structure is asked for, or the
program that was assembled from tokens. Two scripts are equal when their bytes are: the
tokens of an assembled script need not be those that its bytes would be taken apart into.
-/

namespace Bitcoin

/-- A script. -/
inductive Script where
  /-- A byte string, which may have no structure. -/
  | encoded (bytes : Bytes)
  /-- A program that was assembled from tokens. -/
  | assembled (program : Program)
deriving DecidableEq

namespace Script

/-- The script with no bytes. -/
def empty : Script := .encoded []

/-- The bytes of a script. -/
def bytes : Script → Bytes
  | .encoded bytes => bytes
  | .assembled program => program.encode

/-- Whether two scripts have the same bytes. -/
def same (a b : Script) : Bool :=
  a.bytes == b.bytes

/-- The script assembled from a sequence of tokens. -/
def ofTokens (tokens : List Token) : Except Error Script :=
  (Program.ofTokens tokens).map .assembled

/-- The script whose bytes are given in hexadecimal. -/
def ofHex (text : String) : Except Error Script :=
  (decodeHex text).map .encoded

/-- The script that a text describes. -/
def parse (text : String) : Except Error Script := do
  let tokens ← Token.ofText text
  ofTokens tokens

/-- The program of a script. -/
def program : Script → Except Error Program
  | .assembled program => .ok program
  | .encoded bytes => do
    let tokens ← Token.decodeAll bytes
    Program.ofTokens tokens

/-- The tokens of a script. -/
def tokens (script : Script) : Except Error (List Token) :=
  script.program.map Program.tokens

/-- The hexadecimal form of a script. -/
def toHex (script : Script) : String :=
  Hex.encode script.bytes

/-- The text of a script. -/
def text (script : Script) : Except Error String :=
  script.tokens.map Token.textAll

/-- The text of a script, or a remark that it has none. -/
def display (script : Script) : String :=
  match script.text with
  | .ok text => text
  | .error _ => "[error]"

/-- The hash by which a script can be paid to. -/
def hash (script : Script) : FixedBytes 20 :=
  Digest.hash160 script.bytes

/-- The address that pays to a script. -/
def address (script : Script) (network : Network) : String :=
  Address.encode ⟨.scriptHash, network, script.hash⟩

end Script

end Bitcoin
