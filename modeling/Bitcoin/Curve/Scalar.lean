import Bitcoin.Curve.Modular
import Bitcoin.Error

/-!
# Scalars

The points of the curve form a group of prime order `Curve.order`, and a `Scalar` is an
integer modulo that order. Sums, products and negatives are those of the integers modulo
the order; zero is a scalar.
-/

namespace Bitcoin

/-- The number of points of the curve. -/
abbrev Curve.order : Nat :=
  0xfffffffffffffffffffffffffffffffebaaedce6af48a03bbfd25e8cd0364141

/-- The order is not zero; the zero is that of the numerals. -/
instance : @NeZero Nat Zero.ofOfNat0 Curve.order := ⟨by decide⟩

/-- An integer modulo the order of the curve. -/
abbrev Scalar := Fin Curve.order

namespace Scalar

/-- The scalar that a number below the order is. -/
def ofNat? (n : Nat) : Option Scalar :=
  if h : n < Curve.order then some ⟨n, h⟩ else none

/-- The scalar congruent to a number. -/
def ofNatMod (n : Nat) : Scalar :=
  Fin.ofNat Curve.order n

/-- The scalar that 32 bytes denote, the most significant first. -/
def ofBytes (bytes : FixedBytes 32) : Except Error Scalar :=
  match ofNat? bytes.toNatBE with
  | some k => .ok k
  | none => .error (.domain .scalarRange)

/-- The scalar that at most 32 bytes denote, the most significant first. -/
def ofBytesUpTo32 (bytes : Bytes) : Except Error Scalar :=
  if bytes.length > 32 then .error (.domain (.scalarLength bytes.length))
  else match ofNat? (Bytes.toNatBE bytes) with
    | some k => .ok k
    | none => .error (.domain .scalarRange)

/-- The scalar that a 64-bit word is. -/
def ofUInt64 (n : UInt64) : Scalar :=
  ofNatMod n.toNat

/-- The 32 bytes of a scalar, the most significant first. -/
def toBytes (k : Scalar) : FixedBytes 32 :=
  FixedBytes.ofNatBE 32 k.val

/-- Whether a scalar is greater than half of the order. -/
def isHigh (k : Scalar) : Bool :=
  Curve.order / 2 < k.val

/-- The scalar whose product with `k` is one, unless `k` is zero. -/
def inverse (k : Scalar) : Scalar :=
  ofNatMod (Modular.inverse Curve.order k.val)

/-- A scalar in displayed form. -/
def display (k : Scalar) : String :=
  "Scalar(" ++ Hex.encode k.toBytes.toList ++ ")"

end Scalar

end Bitcoin
