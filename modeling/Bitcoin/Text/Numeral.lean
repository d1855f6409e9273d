/-!
# Numerals

A number has digits in any base: `digits` lists them, the most significant first and
without leading zeros, and `ofDigits` reads such a list. The written forms are
`parse?`, which accepts one leading plus sign, and `hex`, which pads to a width.
-/

namespace Bitcoin.Numeral

/-- The digits of `n` in front of `tail`, as far as `fuel` digits suffice. -/
def digitsOnto (base : Nat) : (fuel : Nat) → Nat → List Nat → List Nat
  | 0, _, tail => tail
  | fuel + 1, n, tail =>
    if n = 0 then tail else digitsOnto base fuel (n / base) (n % base :: tail)

/-- The digits of `n` in base `base`, the most significant first; zero has none. A number
has at most as many digits as it has bits. -/
def digits (base n : Nat) : List Nat :=
  digitsOnto base (n.log2 + 1) n []

/-- The number whose digits in base `base` are given, the most significant first. -/
def ofDigits (base : Nat) (ds : List Nat) : Nat :=
  ds.foldl (fun n d => n * base + d) 0

/-- The value of an ASCII digit or letter as a digit, in a base up to 36. -/
def digitValue? (base : Nat) (c : Char) : Option Nat :=
  let value? :=
    if '0' ≤ c ∧ c ≤ '9' then some (c.toNat - '0'.toNat)
    else if 'a' ≤ c ∧ c ≤ 'z' then some (c.toNat - 'a'.toNat + 10)
    else if 'A' ≤ c ∧ c ≤ 'Z' then some (c.toNat - 'A'.toNat + 10)
    else none
  value?.filter (· < base)

/-- Reads an unsigned numeral below `bound`: at least one digit, after at most one plus
sign. -/
def parse? (base bound : Nat) (text : List Char) : Option Nat := do
  let unsigned := match text with
    | '+' :: rest => rest
    | _ => text
  let ds ← unsigned.mapM (digitValue? base)
  if ds.isEmpty then none
  else
    let n := ofDigits base ds
    if n < bound then some n else none

/-- The lower-case hexadecimal digit of a value below 16. -/
def hexDigit (d : Nat) : Char :=
  if d < 10 then Char.ofNat ('0'.toNat + d) else Char.ofNat ('a'.toNat + (d - 10))

/-- The lower-case hexadecimal numeral of `n`, padded with zeros to `width` digits. -/
def hex (width n : Nat) : String :=
  let ds := if n = 0 then ['0'] else (digits 16 n).map hexDigit
  String.ofList (List.replicate (width - ds.length) '0' ++ ds)

end Bitcoin.Numeral
