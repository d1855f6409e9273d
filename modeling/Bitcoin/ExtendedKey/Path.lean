import Bitcoin.ExtendedKey.Derivation

/-!
# Derivation paths

A `DerivationPath` is a list of indices, followed from a given key or, when it is absolute,
from a master key. In text an absolute path starts with `m`, the indices are separated by
slashes, and a mark after an index makes it hardened. `DerivationPath.parse` accepts three
marks, blanks at the ends and slashes at the end; `DerivationPath.render` writes none of
these but the mark `'`.
-/

namespace Bitcoin

/-- A way through a tree of keys. -/
structure DerivationPath where
  /-- Whether it starts at a master key. -/
  absolute : Bool
  /-- The index taken at each step. -/
  indices : List UInt32
deriving DecidableEq

namespace DerivationPath

/-- The digits of a component, and whether a mark follows them. -/
def splitMark (component : List Char) : List Char × Bool :=
  match component.getLast? with
  | some c =>
    if c = '\'' ∨ c = 'h' ∨ c = 'H' then (component.dropLast, true) else (component, false)
  | none => (component, false)

/-- The index a component names. -/
def parseComponent (component : List Char) : Except Error UInt32 :=
  let (digits, hardened) := splitMark component
  match Numeral.parse? 10 0x80000000 digits with
  | some n => .ok (UInt32.ofNat (if hardened then n + 0x80000000 else n))
  | none => .error (.domain (.pathComponent (String.ofList component)))

/-- The path in a list of characters. -/
def parseChars (text : List Char) : Except Error DerivationPath := do
  let trimmed := ((Text.trim text).reverse.dropWhile (· = '/')).reverse
  let components := Text.splitAt '/' trimmed
  let absolute := decide (components.head? = some ['m'])
  let indices ← (if absolute then components.tail else components).mapM parseComponent
  .ok ⟨absolute, indices⟩

/-- The path in a text. -/
def parse (text : String) : Except Error DerivationPath :=
  parseChars text.toList

/-- The text of an index. -/
def renderIndex (index : UInt32) : String :=
  if isHardened index then toString (index.toNat - 0x80000000) ++ "'"
  else toString index.toNat

/-- The text of a path. -/
def render (path : DerivationPath) : String :=
  "/".intercalate ((if path.absolute then ["m"] else []) ++ path.indices.map renderIndex)

end DerivationPath

/-- The keys along a path, from the root to the last. -/
def ExtendedKey.follow (root : ExtendedKey) (path : DerivationPath) :
    Except Error (List ExtendedKey) :=
  if path.absolute && !root.isMaster then .error (.domain .rootNotMaster)
  else root.descend path.indices

/-- The keys along the path in a text. -/
def ExtendedKey.followText (root : ExtendedKey) (text : String) :
    Except Error (List ExtendedKey) := do
  let path ← DerivationPath.parse text
  root.follow path

end Bitcoin
