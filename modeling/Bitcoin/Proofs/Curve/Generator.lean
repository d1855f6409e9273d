import Bitcoin.Proofs.Curve.Group
import Mathlib.GroupTheory.OrderOfElement

/-!
# The order of the generator

The multiple of the generator by one less than `Curve.order` is its reflection. As the order is
prime, two multiples of the generator are the same only when the scalars are
(`Point.mulGenerator_injective`).
-/

namespace Bitcoin.Point

/-- The one multiple of the generator that is computed; all others follow from it. -/
theorem mulGenerator_neg_one :
  mulGenerator (-1) = generator.neg
  := by
  decide +kernel

/-- Multiples of the generator that are computed bit by bit are its multiples in the group. -/
theorem mulGenerator_eq (k : Scalar) :
  mulGenerator k = k.val • generator
  := mul_eq generator k

theorem order_nsmul_generator :
  Curve.order • generator = 0
  := by
  have hneg : (Curve.order - 1) • generator = -generator := by
    rw [← neg_eq, ← mulGenerator_neg_one, mulGenerator_eq]
    rfl
  have hsplit : Curve.order = Curve.order - 1 + 1 := by decide
  rw [hsplit, add_nsmul, one_nsmul, hneg, neg_add_cancel]

/-- The order of the generator is a prime, so no smaller multiple of it vanishes. -/
theorem addOrderOf_generator :
  addOrderOf generator = Curve.order
  := addOrderOf_eq_prime order_nsmul_generator (by decide)

/-- Multiples of the generator are the same when their factors are the same residues. -/
theorem nsmul_generator_eq_iff {j k : Nat} :
  j • generator = k • generator ↔ (j : ZMod Curve.order) = k
  := by
  rw [nsmul_eq_nsmul_iff_modEq, addOrderOf_generator, ZMod.natCast_eq_natCast_iff]

/-- A scalar can be told from its multiple of the generator. -/
theorem mulGenerator_injective :
  Function.Injective mulGenerator
  := by
  intro j k h
  rw [mulGenerator_eq, mulGenerator_eq, nsmul_generator_eq_iff] at h
  apply residue_injective h

theorem mulGenerator_zero :
  mulGenerator 0 = infinity
  := by
  rw [mulGenerator_eq, infinity_eq]
  apply zero_nsmul generator

/-- Only zero takes the generator to the neutral element. -/
theorem mulGenerator_ne_infinity {k : Scalar} (hk : k ≠ 0) :
  mulGenerator k ≠ infinity
  := by
  intro h
  apply hk
  apply mulGenerator_injective
  rw [h, mulGenerator_zero]

theorem isInfinity_iff {p : Point} :
  p.isInfinity = true ↔ p = infinity
  := by
  cases p with
  | infinity => exact ⟨fun _ => rfl, fun _ => rfl⟩
  | affine x y h =>
    constructor
    · rintro ⟨⟩
    · rintro ⟨⟩

/-- Zero is the only scalar without a public point. -/
theorem isInfinity_mulGenerator_iff {k : Scalar} :
  (mulGenerator k).isInfinity = true ↔ k = 0
  := by
  rw [isInfinity_iff, ← mulGenerator_zero]
  apply mulGenerator_injective.eq_iff

/-- Opposite scalars have opposite points. -/
theorem mulGenerator_neg (k : Scalar) :
  mulGenerator (-k) = (mulGenerator k).neg
  := by
  have hsum : mulGenerator (-k) + mulGenerator k = 0 := by
    rw [mulGenerator_eq, mulGenerator_eq, ← add_nsmul, ← zero_nsmul generator,
      nsmul_generator_eq_iff, Nat.cast_add, Nat.cast_zero]
    change residue (-k) + residue k = 0
    rw [residue_neg, neg_add_cancel]
  apply eq_neg_of_add_eq_zero_left hsum

/-- The multiple by a sum is the sum of the multiples. -/
theorem mulGenerator_add (j k : Scalar) :
  (mulGenerator j).add (mulGenerator k) = mulGenerator (j + k)
  := by
  rw [mulGenerator_eq, mulGenerator_eq, mulGenerator_eq, add_eq, ← add_nsmul,
    nsmul_generator_eq_iff, Nat.cast_add]
  change residue j + residue k = residue (j + k)
  rw [residue_add]

/-- A combination of the generator and a multiple of it. -/
theorem mulGenerator_add_mul (j k l : Scalar) :
  (mulGenerator j).add ((mulGenerator l).mul k) = mulGenerator (j + k * l)
  := by
  rw [mul_eq, mulGenerator_eq, mulGenerator_eq, mulGenerator_eq, ← mul_nsmul', add_eq,
    ← add_nsmul, nsmul_generator_eq_iff, Nat.cast_add, Nat.cast_mul]
  change residue j + residue k * residue l = residue (j + k * l)
  rw [residue_add, residue_mul]

end Bitcoin.Point
