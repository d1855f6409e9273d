import Bitcoin.Proofs.Curve.Encoding
import Bitcoin.Proofs.Curve.Generator
import Mathlib.GroupTheory.Perm.Cycle.Type

/-!
# The number of points

A point is known from its first coordinate and the parity of its second one, so that there are at
most twice as many points as coordinates, and one more. The order of the generator divides their
number, which is therefore that order or its double. But no point lies on the axis, so that no
point is of order two, and the number is not even. So there are `Curve.order` points
(`Point.card_eq`), and that many times any point is the neutral element (`Point.order_nsmul`).
-/

namespace Bitcoin.Point

/-- The first coordinate of a point, and whether the second one is odd. -/
def label : Point → Option (Coordinate × Bool)
  | .infinity => none
  | .affine x y _ => some (x, y.isOdd)

theorem label_injective :
  Function.Injective label
  := by
  intro p q h
  cases p with
  | infinity =>
    cases q with
    | infinity => rfl
    | affine x y hq => cases h
  | affine x y hp =>
    cases q with
    | infinity => cases h
    | affine x' y' hq =>
      obtain ⟨hx, hodd⟩ := Prod.mk.inj (Option.some.inj h)
      apply Option.some.inj
      rw [← lift?_val hp, ← lift?_val hq, hx, hodd]

instance : Finite Point := Finite.of_injective label label_injective

/-- There are at most two points for each first coordinate, and infinity. -/
theorem card_le :
  Nat.card Point ≤ 2 * Curve.prime + 1
  := by
  have hcoordinates : Nat.card Coordinate = Curve.prime := by
    rw [Nat.card_eq_fintype_card, Fintype.card_fin]
  have hparities : Nat.card Bool = 2 := by
    rw [Nat.card_eq_fintype_card, Fintype.card_bool]
  have hle := Nat.card_le_card_of_injective label label_injective
  rwa [Finite.card_option, Nat.card_prod, hcoordinates, hparities, Nat.mul_comm] at hle

/-- A point that is its own reflection would lie on the axis. -/
theorem addOrderOf_ne_two (p : Point) :
  addOrderOf p ≠ 2
  := by
  intro h
  have hdouble : p + p = 0 := by
    rw [← two_nsmul, ← h, addOrderOf_nsmul_eq_zero]
  cases p with
  | infinity =>
    rw [infinity_eq, addOrderOf_zero] at h
    apply absurd h (by decide)
  | affine x y honCurve =>
    have hself := eq_neg_of_add_eq_zero_left hdouble
    rw [← neg_eq, neg, affine.injEq] at hself
    have hsum : 2 * residue y = 0 := by
      have hresidue := congrArg residue hself.2
      rw [residue_neg] at hresidue
      linear_combination hresidue
    have hzero := (mul_eq_zero.mp hsum).resolve_left Curve.two_ne_zero
    apply y_ne_zero honCurve (residue_eq_zero_iff.mp hzero)

/-- All points are multiples of the generator: no point is of order two, so that there are not twice
as many. -/
theorem card_eq :
  Nat.card Point = Curve.order
  := by
  have hle := card_le
  have hpos : 0 < Nat.card Point := Nat.card_pos
  obtain ⟨k, hk⟩ : Curve.order ∣ Nat.card Point := by
    rw [← addOrderOf_generator]
    apply addOrderOf_dvd_natCard
  have hne : k ≠ 2 := by
    rintro rfl
    have htwo : 2 ∣ Nat.card Point := ⟨Curve.order, by rw [hk, Nat.mul_comm]⟩
    obtain ⟨p, hp⟩ := exists_prime_addOrderOf_dvd_card' 2 htwo
    apply addOrderOf_ne_two p hp
  have hlt : k < 3 := by
    have hbound : 2 * Curve.prime + 1 < Curve.order * 3 := by decide
    rw [hk] at hle
    apply Nat.lt_of_mul_lt_mul_left (Nat.lt_of_le_of_lt hle hbound)
  have hnonzero : k ≠ 0 := by
    rintro rfl
    rw [hk] at hpos
    apply Nat.lt_irrefl 0 hpos
  have hone : k = 1 := by omega
  rw [hk, hone, Nat.mul_one]

/-- The order of the group takes every point to the neutral element. -/
theorem order_nsmul (p : Point) :
  Curve.order • p = 0
  := by
  rw [← card_eq, card_nsmul_eq_zero']

end Bitcoin.Point
