import Bitcoin.Proofs.Curve.Primality
import Mathlib.Algebra.Field.ZMod

/-!
# Coordinates and scalars are residues

The arithmetic of the numbers below a modulus is that of the residue classes. As the moduli
of the curve are primes, the coordinates and the scalars are the elements of two fields, and
inverses are what they should be.
-/

namespace Bitcoin

/-- The residue class that a number below the modulus stands for. -/
def residue {n : Nat} (x : Fin n) : ZMod n :=
  x.val

variable {n : Nat}

/-- Values below a modulus are equal if their residues are. -/
theorem residue_injective :
  Function.Injective (residue : Fin n → ZMod n)
  := by
  intro x y h
  rw [residue, residue, ZMod.natCast_eq_natCast_iff, Nat.ModEq, Nat.mod_eq_of_lt x.isLt,
    Nat.mod_eq_of_lt y.isLt] at h
  apply Fin.ext h

@[simp]
theorem residue_add (x y : Fin n) :
  residue (x + y) = residue x + residue y
  := by
  rw [residue, Fin.val_add, ZMod.natCast_mod, Nat.cast_add]
  rfl

@[simp]
theorem residue_mul (x y : Fin n) :
  residue (x * y) = residue x * residue y
  := by
  rw [residue, Fin.val_mul, ZMod.natCast_mod, Nat.cast_mul]
  rfl

@[simp]
theorem residue_sub (x y : Fin n) :
  residue (x - y) = residue x - residue y
  := by
  rw [residue, Fin.sub_def, ZMod.natCast_mod, Nat.cast_add, Nat.cast_sub (Nat.le_of_lt y.isLt),
    ZMod.natCast_self, zero_sub, neg_add_eq_sub]
  rfl

/-- Negation below a modulus is that of residues. -/
@[simp]
theorem residue_neg (x : Fin n) :
  residue (-x) = -residue x
  := by
  rw [residue, Fin.neg_def, ZMod.natCast_mod, Nat.cast_sub (Nat.le_of_lt x.isLt),
    ZMod.natCast_self, zero_sub]
  rfl

variable [@NeZero Nat Zero.ofOfNat0 n]

@[simp]
theorem residue_ofNat (k : Nat) :
  residue (no_index (OfNat.ofNat k) : Fin n) = (k : ZMod n)
  := ZMod.natCast_mod k n

/-- The residue of a number that was reduced is that of the number. -/
@[simp]
theorem residue_finOfNat (k : Nat) :
  residue (Fin.ofNat n k) = (k : ZMod n)
  := ZMod.natCast_mod k n

/-- Zero is the only value with residue zero. -/
theorem residue_eq_zero_iff {x : Fin n} :
  residue x = 0 ↔ x = 0
  := by
  rw [← residue_injective.eq_iff, residue_ofNat, Nat.cast_zero]

instance : Fact Curve.prime.Prime := ⟨Curve.prime_prime⟩

instance : Fact Curve.order.Prime := ⟨Curve.prime_order⟩

/-- The inverse modulo a prime is the inverse in the field of residues. -/
theorem cast_modularInverse [Fact n.Prime] {x : Fin n} (hx : x ≠ 0) :
  (Modular.inverse n x.val : ZMod n) = (residue x)⁻¹
  := by
  have hprime : n.Prime := Fact.out
  have hcoprime : Nat.Coprime x.val n := by
    rw [Nat.coprime_comm, Nat.Prime.coprime_iff_not_dvd hprime]
    intro hdvd
    apply hx
    rw [← residue_eq_zero_iff]
    apply (ZMod.natCast_eq_zero_iff _ _).mpr hdvd
  apply eq_inv_of_mul_eq_one_left
  rw [residue, ← Nat.cast_mul, ← Nat.cast_one, ZMod.natCast_eq_natCast_iff, Nat.ModEq,
    Nat.mod_eq_of_lt hprime.one_lt]
  apply Modular.inverse_mul_mod hprime.one_lt hcoprime

/-- The inverse of a coordinate that is computed is its inverse in the field. -/
@[simp]
theorem residue_coordinateInverse {x : Coordinate} (hx : x ≠ 0) :
  residue x.inverse = (residue x)⁻¹
  := by
  rw [Coordinate.inverse, residue_finOfNat, cast_modularInverse hx]

/-- The inverse of a scalar that is computed is its inverse in the field. -/
@[simp]
theorem residue_scalarInverse {k : Scalar} (hk : k ≠ 0) :
  residue k.inverse = (residue k)⁻¹
  := by
  rw [Scalar.inverse, Scalar.ofNatMod, residue_finOfNat, cast_modularInverse hk]

end Bitcoin
