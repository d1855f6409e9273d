import Bitcoin.Curve.Scalar

/-!
# Points of the curve

The curve is `y² = x³ + 7` over the integers modulo the prime `Curve.prime`. A `Point` is
the point at infinity or a pair of coordinates that satisfies the equation. Points are
added by the chord and tangent construction; `Point.add` is closed because the third
intersection of a chord or tangent lies on the curve (`chord_onCurve`,
`tangent_onCurve`), whatever the slope, as long as the inverse it is computed with is one.
`Point.mul` is repeated addition by doubling.
-/

namespace Bitcoin

/-- The number of elements of the field of coordinates. -/
abbrev Curve.prime : Nat :=
  0xfffffffffffffffffffffffffffffffffffffffffffffffffffffffefffffc2f

/-- The prime is not zero; the zero is that of the numerals. -/
instance : @NeZero Nat Zero.ofOfNat0 Curve.prime := ⟨by decide⟩

/-- A coordinate: an integer modulo the prime. -/
abbrev Coordinate := Fin Curve.prime

namespace Coordinate

/-- The coordinate that a number below the prime is. -/
def ofNat? (n : Nat) : Option Coordinate :=
  if h : n < Curve.prime then some ⟨n, h⟩ else none

/-- The coordinate whose product with `x` is one, unless `x` is zero. -/
def inverse (x : Coordinate) : Coordinate :=
  Fin.ofNat Curve.prime (Modular.inverse Curve.prime x.val)

/-- A square root of `x`, if it has one. The prime is three modulo four. -/
def sqrt? (x : Coordinate) : Option Coordinate :=
  let root := Fin.ofNat Curve.prime (Modular.power Curve.prime x.val 254 ((Curve.prime + 1) / 4))
  if root * root = x then some root else none

/-- Whether a coordinate is an odd number. -/
def isOdd (x : Coordinate) : Bool :=
  x.val % 2 = 1

/-- The 32 bytes of a coordinate, the most significant first. -/
def toBytes (x : Coordinate) : FixedBytes 32 :=
  FixedBytes.ofNatBE 32 x.val

end Coordinate

/-- A point of the curve. -/
inductive Point where
  /-- The neutral element. -/
  | infinity
  /-- A pair of coordinates on the curve. -/
  | affine (x y : Coordinate) (onCurve : y * y = x * x * x + 7)
deriving DecidableEq

section Chord

variable {n : Nat} [@NeZero Nat Zero.ofOfNat0 n]

/-- A factor with an inverse can be cancelled. -/
private theorem cancel_right {a b c d : Fin n} (hd : d * c = 1) (h : a * c = b * c) :
  a = b
  := by
  have e : a * (d * c) = b * (d * c) := by grind
  rw [hd] at e
  grind

/-- The slope of a chord multiplied by its run is its rise. -/
private theorem slope_mul_run {x₁ y₁ x₂ y₂ d : Fin n} (hd : d * (x₂ - x₁) = 1) :
  (y₂ - y₁) * d * (x₂ - x₁) = y₂ - y₁
  := by
  have e : (y₂ - y₁) * d * (x₂ - x₁) = (y₂ - y₁) * (d * (x₂ - x₁)) := by grind
  rw [e, hd]
  grind

/-- The product of the slope of a chord and the sum of its ends' second coordinates. -/
private theorem slope_mul_sum {x₁ y₁ x₂ y₂ d l : Fin n} (hd : d * (x₂ - x₁) = 1)
    (h₁ : y₁ * y₁ = x₁ * x₁ * x₁ + 7) (h₂ : y₂ * y₂ = x₂ * x₂ * x₂ + 7)
    (hl : l * (x₂ - x₁) = y₂ - y₁) :
  l * (y₂ + y₁) = x₂ * x₂ + x₂ * x₁ + x₁ * x₁
  := by
  apply cancel_right hd
  have e : l * (y₂ + y₁) * (x₂ - x₁) = l * (x₂ - x₁) * (y₂ + y₁) := by grind
  rw [e, hl]
  grind

/-- Twice the product of the slope of a chord and its first end's second coordinate. -/
private theorem slope_mul_start {x₁ y₁ x₂ y₂ l : Fin n} (hl : l * (x₂ - x₁) = y₂ - y₁)
    (hs : l * (y₂ + y₁) = x₂ * x₂ + x₂ * x₁ + x₁ * x₁) :
  l * y₁ * 2 = x₂ * x₂ + x₂ * x₁ + x₁ * x₁ - l * l * (x₂ - x₁)
  := by
  have e : l * l * (x₂ - x₁) = l * (y₂ - y₁) := by rw [← hl]; grind
  rw [e, ← hs]
  grind

/-- The square of the second coordinate of the point where a line through `(x₁, y₁)` meets
the curve again, reflected in the x-axis. -/
private theorem square_on_line {x₁ y₁ l x : Fin n} :
  (l * (x₁ - x) - y₁) * (l * (x₁ - x) - y₁)
    = l * l * ((x₁ - x) * (x₁ - x)) - l * y₁ * 2 * (x₁ - x) + y₁ * y₁
  := by
  grind

/-- The reflected third intersection of a chord lies on the curve. -/
theorem chord_onCurve {x₁ y₁ x₂ y₂ d l x : Fin n} (h₁ : y₁ * y₁ = x₁ * x₁ * x₁ + 7)
    (h₂ : y₂ * y₂ = x₂ * x₂ * x₂ + 7) (hd : d * (x₂ - x₁) = 1) (hl : l = (y₂ - y₁) * d)
    (hx : x = l * l - x₁ - x₂) :
  (l * (x₁ - x) - y₁) * (l * (x₁ - x) - y₁) = x * x * x + 7
  := by
  have run : l * (x₂ - x₁) = y₂ - y₁ := by rw [hl]; exact slope_mul_run hd
  have start := slope_mul_start run (slope_mul_sum hd h₁ h₂ run)
  have sum : l * l = x + x₁ + x₂ := by rw [hx]; grind
  rw [square_on_line, start, h₁, sum]
  grind

/-- The reflected second intersection of a tangent lies on the curve. -/
theorem tangent_onCurve {x₁ y₁ d l x : Fin n} (h₁ : y₁ * y₁ = x₁ * x₁ * x₁ + 7)
    (hd : d * (2 * y₁) = 1) (hl : l = 3 * x₁ * x₁ * d) (hx : x = l * l - x₁ - x₁) :
  (l * (x₁ - x) - y₁) * (l * (x₁ - x) - y₁) = x * x * x + 7
  := by
  have start : l * y₁ * 2 = 3 * x₁ * x₁ * (d * (2 * y₁)) := by rw [hl]; grind
  have sum : l * l = x + x₁ + x₁ := by rw [hx]; grind
  rw [square_on_line, start, hd, h₁, sum]
  grind

/-- The reflection of a point in the x-axis lies on the curve. -/
theorem neg_onCurve {x y : Fin n} (h : y * y = x * x * x + 7) :
  -y * -y = x * x * x + 7
  := by
  grind

end Chord

namespace Point

/-- The generator of the group. -/
def generator : Point :=
  .affine 0x79be667ef9dcbbac55a06295ce870b07029bfcdb2dce28d959f2815b16f81798
    0x483ada7726a3c4655da4fbfc0e1108a8fd17b448a68554199c47d08ffb10d4b8 (by decide)

/-- The point with given coordinates, if they lie on the curve. -/
def ofCoordinates? (x y : Nat) : Option Point := do
  let x ← Coordinate.ofNat? x
  let y ← Coordinate.ofNat? y
  if h : y * y = x * x * x + 7 then some (.affine x y h) else none

/-- The reflection of a point in the x-axis. -/
def neg : Point → Point
  | .infinity => .infinity
  | .affine x y h => .affine x (-y) (neg_onCurve h)

/-- The point with a given first coordinate whose second coordinate is odd or even, if the
curve has one. -/
def lift? (x : Nat) (odd : Bool) : Option Point := do
  let x ← Coordinate.ofNat? x
  let y ← Coordinate.sqrt? (x * x * x + 7)
  if h : y * y = x * x * x + 7 then
    some (if y.isOdd = odd then .affine x y h else neg (.affine x y h))
  else none

/-- The sum of a point and itself. -/
def double : Point → Point
  | .infinity => .infinity
  | .affine x y h =>
    let d := Coordinate.inverse (2 * y)
    if hd : d * (2 * y) = 1 then
      let l := 3 * x * x * d
      let x' := l * l - x - x
      .affine x' (l * (x - x') - y) (tangent_onCurve h hd rfl rfl)
    else .infinity

/-- The sum of two points. -/
def add : Point → Point → Point
  | .infinity, q => q
  | p, .infinity => p
  | .affine x₁ y₁ h₁, .affine x₂ y₂ h₂ =>
    if x₁ = x₂ then
      if y₁ = y₂ then double (.affine x₁ y₁ h₁) else .infinity
    else
      let d := Coordinate.inverse (x₂ - x₁)
      if hd : d * (x₂ - x₁) = 1 then
        let l := (y₂ - y₁) * d
        let x := l * l - x₁ - x₂
        .affine x (l * (x₁ - x) - y₁) (chord_onCurve h₁ h₂ hd rfl rfl)
      else .infinity

/-- The multiple of a point by the lowest `bits` bits of a number. -/
def mulBits (p : Point) : (bits : Nat) → Nat → Point
  | 0, _ => .infinity
  | bits + 1, k =>
    let twice := double (mulBits p bits (k / 2))
    if k % 2 = 1 then add twice p else twice

/-- The multiple of a point by a scalar. -/
def mul (p : Point) (k : Scalar) : Point :=
  p.mulBits 256 k.val

/-- The multiple of the generator by a scalar. -/
def mulGenerator (k : Scalar) : Point :=
  generator.mul k

/-- Whether a point is the neutral element. -/
def isInfinity : Point → Bool
  | .infinity => true
  | .affine _ _ _ => false

/-- The first coordinate. -/
def x? : Point → Option Coordinate
  | .infinity => none
  | .affine x _ _ => some x

/-- The second coordinate. -/
def y? : Point → Option Coordinate
  | .infinity => none
  | .affine _ y _ => some y

/-- A point that 64 bytes of coordinates denote. -/
def ofCoordinates (x y : FixedBytes 32) : Except Error Point :=
  match ofCoordinates? x.toNatBE y.toNatBE with
  | some p => .ok p
  | none => .error (.domain .notOnCurve)

/-- The point whose first coordinate 32 bytes denote. -/
def lift (x : FixedBytes 32) (odd : Bool) : Except Error Point :=
  match lift? x.toNatBE odd with
  | some p => .ok p
  | none => .error (.domain .noSuchX)

/-- The encoding of a point by its first coordinate and the parity of its second; the
point at infinity has none. -/
def compressed : Point → Bytes
  | .infinity => []
  | .affine x y _ => (if y.isOdd then 0x03 else 0x02) :: x.toBytes.toList

/-- The encoding of a point by both its coordinates; the point at infinity has none. -/
def uncompressed : Point → Bytes
  | .infinity => []
  | .affine x y _ => 0x04 :: (x.toBytes.toList ++ y.toBytes.toList)

/-- A point in displayed form. -/
def display (p : Point) : String :=
  if p.isInfinity then "Point(infinity)" else "Point(" ++ Hex.encode p.compressed ++ ")"

end Point

end Bitcoin
