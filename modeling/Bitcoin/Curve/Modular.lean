/-!
# Inverses and powers modulo a number

`Modular.inverse` runs the algorithm of Euclid and keeps, beside each remainder, the
multiple of the argument that it is congruent to. `Modular.power` raises to a power by
squaring.
-/

namespace Bitcoin.Modular

/-- The steps of the algorithm of Euclid on two remainders. Each coefficient times the
argument is congruent to its remainder; the coefficient of the last remainder that is not
zero is the answer. -/
def euclid : (steps : Nat) → (r₀ : Nat) → (s₀ : Int) → (r₁ : Nat) → (s₁ : Int) → Int
  | 0, _, s₀, _, _ => s₀
  | steps + 1, r₀, s₀, r₁, s₁ =>
    if r₁ = 0 then s₀
    else euclid steps r₁ s₁ (r₀ % r₁) (s₀ - (r₀ / r₁ : Nat) * s₁)

/-- The number whose product with `a` is one modulo `m`, if `a` has a divisor in common
with `m` only when that is one. Two steps halve the remainders, so that twice the bits of
`m` are steps enough. -/
def inverse (m a : Nat) : Nat :=
  (euclid (2 * m.log2 + 4) m 0 (a % m) 1 % (m : Int)).toNat

/-- The power of `a` modulo `m` whose exponent is the lowest `bits` bits of `e`. -/
def power (m a : Nat) : (bits : Nat) → (e : Nat) → Nat
  | 0, _ => 1 % m
  | bits + 1, e =>
    let root := power m a bits (e / 2)
    let square := root * root % m
    if e % 2 = 1 then square * a % m else square

end Bitcoin.Modular
