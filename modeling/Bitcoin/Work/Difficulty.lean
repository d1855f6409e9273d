import Bitcoin.Work.Target

/-!
# Difficulty

The difficulty of a target is how many times smaller it is than the easiest one, as a
double. `UInt256.toFloat` rounds a word to a double, word by word from the highest;
`UInt256.ofFloatTrunc` takes the integer part of one, exactly.
-/

namespace Bitcoin

namespace UInt256

/-- A word as a double. -/
def toFloat (x : UInt256) : Float :=
  [x.w₃, x.w₂, x.w₁, x.w₀].foldl (fun sum w => sum * 18446744073709551616.0 + w.toFloat) 0.0

/-- The integer part of a double that is finite and not negative. -/
def ofFloatTrunc (value : Float) : Except Error UInt256 :=
  let (negative, exponent, fraction) := Decimal.fields value
  if exponent = 2047 then .error (.domain (.notFinite value))
  else if negative ∧ ¬(exponent = 0 ∧ fraction = 0) then .error (.domain (.notFinite value))
  else if exponent < 1023 then .ok zero
  else
    let mantissa := UInt64.ofNat (Decimal.hiddenBit + fraction)
    if exponent < 1075 then .ok (ofUInt64 (mantissa >>> UInt64.ofNat (1075 - exponent)))
    else if exponent - 1075 + 53 > 256 then .error (.domain (.not256Bits value))
    else .ok ((ofUInt64 mantissa).shiftLeft (exponent - 1075))

end UInt256

namespace Target

/-- The target of a difficulty: the quotient of the doubles, truncated. -/
def ofDifficulty (difficulty : Float) : Except Error UInt256 :=
  let (negative, exponent, fraction) := Decimal.fields difficulty
  if exponent = 2047 ∨ negative ∨ (exponent = 0 ∧ fraction = 0) then
    .error (.domain (.difficulty difficulty))
  else UInt256.ofFloatTrunc (maximum.toFloat / difficulty)

/-- The difficulty of the target in a compact form. -/
def difficultyOfCompact (bits : UInt32) : Except Error Float := do
  let target ← ofCompact bits
  if target.isZero then .error (.domain .zeroTarget)
  else .ok (maximum.toFloat / target.toFloat)

end Target

end Bitcoin
