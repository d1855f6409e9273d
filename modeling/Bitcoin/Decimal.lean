import Bitcoin.Text.Numeral

/-!
# Shortest decimals

`Decimal.shortest` finds, for a positive binary fraction, the decimal with the fewest
digits that lies in the interval of the numbers rounding to it, and of these the nearest,
a tie going up. `Decimal.plain` writes a double in that form without an exponent.
-/

namespace Bitcoin.Decimal

/-- A positive number `mantissa * 2 ^ exponent`, with what decides which decimals round
to it. -/
structure Binary where
  /-- The integer in front. -/
  mantissa : Nat
  /-- The power of two it is scaled by. -/
  exponent : Int
  /-- Whether the number below is only half as far away as the number above. -/
  closerBelow : Bool
deriving DecidableEq

/-- A decimal `digits * 10 ^ exponent`. -/
structure Digits where
  /-- The digits as one number. -/
  digits : Nat
  /-- The power of ten they are scaled by. -/
  exponent : Int
deriving DecidableEq

/-- A power with a possibly negative exponent as a fraction. -/
def power (base : Nat) (exponent : Int) : Nat × Nat :=
  if 0 ≤ exponent then (Nat.pow base exponent.toNat, 1)
  else (1, Nat.pow base (-exponent).toNat)

/-- Whether `digits * 10 ^ exponent` rounds to `x`. Multiplied by four and cleared of
denominators, `x` is `4 * mantissa`, the half-way point above is two more and the one
below two less, or one less next to a power of two. The half-way points themselves round
to an even mantissa. -/
def roundsTo (x : Binary) (d : Digits) : Bool :=
  let (p2, q2) := power 2 x.exponent
  let (p10, q10) := power 10 d.exponent
  let value := 4 * d.digits * p10 * q2
  let unit := p2 * q10
  let low := (4 * x.mantissa - (if x.closerBelow then 1 else 2)) * unit
  let high := (4 * x.mantissa + 2) * unit
  if x.mantissa % 2 = 0 then low ≤ value && value ≤ high else low < value && value < high

/-- The distance of `digits * 10 ^ exponent` from `x`, in units that depend only on the
exponents. -/
def distance (x : Binary) (d : Digits) : Nat :=
  let (p2, q2) := power 2 x.exponent
  let (p10, q10) := power 10 d.exponent
  let value := d.digits * p10 * q2
  let exact := x.mantissa * p2 * q10
  if value ≤ exact then exact - value else value - exact

/-- The largest multiple of `10 ^ exponent` that is not above `x`. -/
def floor (x : Binary) (exponent : Int) : Digits :=
  let (p2, q2) := power 2 x.exponent
  let (p10, q10) := power 10 exponent
  ⟨x.mantissa * p2 * q10 / (q2 * p10), exponent⟩

/-- The multiple of `10 ^ exponent` next to `x` that rounds to it: the nearer of two, and
of two equally near the larger one. -/
def onGrid? (x : Binary) (exponent : Int) : Option Digits :=
  let below := floor x exponent
  let above : Digits := ⟨below.digits + 1, exponent⟩
  match roundsTo x below, roundsTo x above with
  | false, false => none
  | true, false => some below
  | false, true => some above
  | true, true =>
    if distance x below < distance x above then some below else some above

/-- The first hit when the grid is refined step by step from `exponent` on. -/
def refine (x : Binary) : (steps : Nat) → (exponent : Int) → Digits
  | 0, exponent => floor x exponent
  | steps + 1, exponent => (onGrid? x exponent).getD (refine x steps (exponent - 1))

/-- The shortest decimal that rounds to `x`. The grid starts above the number and ends at
the last binary place, where the number itself is a decimal. -/
def shortest (x : Binary) : Digits :=
  let top : Int := (x.mantissa.log2 + 1 + x.exponent) * 3 / 10 + 2
  refine x (top + 1100).toNat top

/-- A decimal written without an exponent. -/
def Digits.plain (d : Digits) : String :=
  let ds := (Numeral.digits 10 d.digits).map Numeral.hexDigit
  if 0 ≤ d.exponent then String.ofList (ds ++ List.replicate d.exponent.toNat '0')
  else
    let places := (-d.exponent).toNat
    let padded := List.replicate (places + 1 - ds.length) '0' ++ ds
    let whole := padded.take (padded.length - places)
    let fraction := padded.drop (padded.length - places)
    String.ofList (whole ++ '.' :: fraction)

/-- The weight of the bit in front of the fraction of a double, which is not stored. -/
def hiddenBit : Nat :=
  Nat.pow 2 52

/-- The fields of a double: sign, biased exponent of eleven bits, and fraction. -/
def fields (x : Float) : Bool × Nat × Nat :=
  let bits := x.toBits.toNat
  (bits / (2048 * hiddenBit) = 1, bits / hiddenBit % 2048, bits % hiddenBit)

/-- A double in decimal: the fewest digits that read back, never an exponent, no point in
front of nothing. -/
def plain (x : Float) : String :=
  let (negative, exponent, fraction) := fields x
  if exponent = 2047 then
    if fraction = 0 then (if negative then "-inf" else "inf") else "NaN"
  else
    let magnitude :=
      if exponent = 0 then
        if fraction = 0 then "0" else (shortest ⟨fraction, -1074, false⟩).plain
      else
        (shortest ⟨hiddenBit + fraction, exponent - 1075, fraction = 0 ∧ 1 < exponent⟩).plain
    if negative then "-" ++ magnitude else magnitude

end Bitcoin.Decimal
