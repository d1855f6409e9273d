/-!
# Byte strings

A byte string is a list of bytes, `Bytes`; one of a known length `n` is a `FixedBytes n`.
The functions `Bytes.toNatLE` and `Bytes.toNatBE` read a byte string as a numeral in base
256, with the least or the most significant byte first, and `Bytes.ofNatLE` and
`Bytes.ofNatBE` write one of a given width.
-/

namespace Bitcoin

/-- A byte string. -/
abbrev Bytes := List UInt8

namespace Bytes

/-- The number a byte string denotes when its first byte is the least significant. -/
def toNatLE : Bytes → Nat
  | [] => 0
  | b :: rest => b.toNat + 256 * toNatLE rest

/-- The number a byte string denotes when its first byte is the most significant. -/
def toNatBE (bytes : Bytes) : Nat :=
  bytes.foldl (fun n b => n * 256 + b.toNat) 0

/-- The lowest `width` bytes of a number, the least significant first. -/
def ofNatLE : (width : Nat) → Nat → Bytes
  | 0, _ => []
  | width + 1, n => UInt8.ofNat n :: ofNatLE width (n / 256)

/-- The lowest `width` bytes of a number, the most significant first. -/
def ofNatBE (width n : Nat) : Bytes :=
  (ofNatLE width n).reverse

@[simp]
theorem length_ofNatLE (width n : Nat) :
  (ofNatLE width n).length = width
  := by
  induction width generalizing n with
  | zero => rfl
  | succ width ih => simp [ofNatLE, ih]

@[simp]
theorem length_ofNatBE (width n : Nat) :
  (ofNatBE width n).length = width
  := by
  simp [ofNatBE]

/-- The bytes that are not leading zeros. -/
def trimZeros (bytes : Bytes) : Bytes :=
  bytes.dropWhile (· == 0)

end Bytes

/-- A byte string of length `n`. -/
structure FixedBytes (n : Nat) where
  /-- The bytes, in order. -/
  toList : Bytes
  /-- There are `n` of them. -/
  length_eq : toList.length = n
deriving DecidableEq

namespace FixedBytes

attribute [simp] length_eq

/-- A byte string, if it has the wanted length. -/
def ofList? {n : Nat} (bytes : Bytes) : Option (FixedBytes n) :=
  if h : bytes.length = n then some ⟨bytes, h⟩ else none

/-- The byte string of `n` zeros. -/
def zero (n : Nat) : FixedBytes n :=
  ⟨List.replicate n 0, by simp⟩

instance {n : Nat} : Inhabited (FixedBytes n) := ⟨zero n⟩

/-- The bytes in the opposite order. -/
def reverse {n : Nat} (bytes : FixedBytes n) : FixedBytes n :=
  ⟨bytes.toList.reverse, by simp⟩

/-- The lowest `n` bytes of a number, the most significant first. -/
def ofNatBE (n x : Nat) : FixedBytes n :=
  ⟨Bytes.ofNatBE n x, by simp⟩

/-- The number the bytes denote, the most significant byte first. -/
def toNatBE {n : Nat} (bytes : FixedBytes n) : Nat :=
  Bytes.toNatBE bytes.toList

/-- Whether every byte is zero. -/
def isZero {n : Nat} (bytes : FixedBytes n) : Bool :=
  bytes.toList.all (· == 0)

/-- The lexicographic order, in which the first differing byte decides. -/
def order {n : Nat} (a b : FixedBytes n) : Ordering :=
  List.compareLex compare a.toList b.toList

/-- The first `k` bytes. -/
def take {n : Nat} (k : Nat) (le : k ≤ n) (bytes : FixedBytes n) : FixedBytes k :=
  ⟨bytes.toList.take k, by simp [Nat.min_eq_left le]⟩

/-- The bytes after the first `k`. -/
def drop {n : Nat} (k : Nat) (bytes : FixedBytes n) : FixedBytes (n - k) :=
  ⟨bytes.toList.drop k, by simp⟩

end FixedBytes

end Bitcoin
