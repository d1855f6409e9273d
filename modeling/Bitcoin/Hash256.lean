import Bitcoin.Error

/-!
# Names of transactions

A transaction is named by a hash of 32 bytes, a `Hash256`. On the wire its bytes stand in
the order of the digest; people read and write them in the opposite order, as hexadecimal
text, which `Hash256.ofHex` and `Hash256.toHex` do.
-/

namespace Bitcoin

/-- A hash of 32 bytes, in the order of the wire. -/
abbrev Hash256 := FixedBytes 32

namespace Hash256

/-- The double SHA-256 of a byte string. -/
def ofData (bytes : Bytes) : Hash256 :=
  Digest.hash256 bytes

/-- A hash whose bytes are given in the order of the wire. -/
def ofBytes (bytes : Bytes) : Except Error Hash256 :=
  match FixedBytes.ofList? bytes with
  | some hash => .ok hash
  | none => .error (.decoding (.hashLength bytes.length))

/-- A hash whose bytes are given as text in the order of display. -/
def ofHex (text : String) : Except Error Hash256 := do
  let bytes ← decodeHex text
  ofBytes bytes.reverse

/-- The text of a hash, in the order of display. -/
def toHex (hash : Hash256) : String :=
  Hex.encode hash.reverse.toList

end Hash256

end Bitcoin
