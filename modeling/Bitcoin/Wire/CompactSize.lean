import Bitcoin.Wire.Reader

/-!
# Compact sizes

Counts and lengths below `2 ^ 64` are written in one byte when they are below `0xfd`, and
else behind one of three marks in two, four or eight bytes. `CompactSize.encode` writes the
shortest form; `CompactSize.read` accepts any. A byte string behind its length is written
by `CompactSize.encodeBytes` and read by `CompactSize.readBytes`.
-/

namespace Bitcoin.CompactSize

/-- The shortest form of a number. -/
def encode (n : Nat) : Bytes :=
  if n < 0xfd then [UInt8.ofNat n]
  else if n ≤ 0xffff then 0xfd :: Bytes.ofNatLE 2 n
  else if n ≤ 0xffffffff then 0xfe :: Bytes.ofNatLE 4 n
  else 0xff :: Bytes.ofNatLE 8 n

/-- A byte string behind its length. -/
def encodeBytes (bytes : Bytes) : Bytes :=
  encode bytes.length ++ bytes

/-- Takes a number in any of its forms. -/
def read : Reader Nat := do
  let mark ← Reader.u8
  if mark = 0xfd then Reader.natLE 2
  else if mark = 0xfe then Reader.natLE 4
  else if mark = 0xff then Reader.natLE 8
  else return mark.toNat

/-- Takes a byte string behind its length. -/
def readBytes : Reader Bytes := do
  let length ← read
  Reader.take length

end Bitcoin.CompactSize
