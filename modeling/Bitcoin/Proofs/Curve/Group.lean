import Bitcoin.Proofs.Curve.Residue
import Mathlib.AlgebraicGeometry.EllipticCurve.Affine.Point
import Mathlib.Tactic.LinearCombination

/-!
# The points form a group

The equation of the curve is a Weierstrass equation, and the chord and tangent construction
is its group law. So the points embed into the group of the Weierstrass curve over the field
of residues (`Point.toCurve`), and they are a group themselves, in which `Point.mulBits` is
the multiple.
-/

namespace Bitcoin

/-- The equation `y² = x³ + 7` over the field of residues. -/
def Curve.weierstrass : WeierstrassCurve.Affine (ZMod Curve.prime) :=
  ⟨0, 0, 0, 0, 7⟩

namespace Curve

theorem two_ne_zero :
  (2 : ZMod prime) ≠ 0
  := by
  intro h
  have hdvd : prime ∣ 2 := (ZMod.natCast_eq_zero_iff 2 prime).mp h
  apply absurd (Nat.le_of_dvd (by decide) hdvd) (by decide)

/-- Every point of the curve is nonsingular. -/
theorem nonsingular_iff {x y : ZMod prime} :
  weierstrass.Nonsingular x y ↔ y * y = x * x * x + 7
  := by
  have hΔ : weierstrass.Δ ≠ 0 := by
    have e : weierstrass.Δ = -(21168 : Nat) := by
      simp [weierstrass, WeierstrassCurve.Δ, WeierstrassCurve.b₂, WeierstrassCurve.b₄,
        WeierstrassCurve.b₆, WeierstrassCurve.b₈]
      norm_num
    rw [e, neg_ne_zero]
    intro h
    have hdvd : prime ∣ 21168 := (ZMod.natCast_eq_zero_iff _ _).mp h
    apply absurd (Nat.le_of_dvd (by decide) hdvd) (by decide)
  rw [← WeierstrassCurve.Affine.equation_iff_nonsingular_of_Δ_ne_zero hΔ,
    WeierstrassCurve.Affine.equation_iff]
  simp only [weierstrass, zero_mul, add_zero]
  rw [pow_two, pow_three, mul_assoc]

theorem negY_eq (x y : ZMod prime) :
  weierstrass.negY x y = -y
  := by
  simp [weierstrass]

/-- The first coordinate of a sum, on a line of slope `l`. -/
theorem addX_eq (x₁ x₂ l : ZMod prime) :
  weierstrass.addX x₁ x₂ l = l * l - x₁ - x₂
  := by
  simp [weierstrass, pow_two]

/-- The second coordinate of a sum, on a line of slope `l`. -/
theorem addY_eq (x₁ x₂ y₁ l : ZMod prime) :
  weierstrass.addY x₁ x₂ y₁ l = l * (x₁ - (l * l - x₁ - x₂)) - y₁
  := by
  rw [WeierstrassCurve.Affine.addY, negY_eq, WeierstrassCurve.Affine.negAddY, addX_eq]
  ring

/-- The slope of the tangent. -/
theorem slope_self {x y : ZMod prime} (hy : y ≠ 0) :
  weierstrass.slope x x y y = 3 * x * x * (2 * y)⁻¹
  := by
  have hne : y ≠ weierstrass.negY x y := by
    rw [negY_eq]
    intro h
    have hsum : 2 * y = 0 := by linear_combination h
    apply hy ((mul_eq_zero.mp hsum).resolve_left two_ne_zero)
  rw [WeierstrassCurve.Affine.slope_of_Y_ne rfl hne, negY_eq, div_eq_mul_inv]
  simp only [weierstrass, zero_mul, mul_zero, add_zero, sub_zero]
  rw [pow_two, sub_neg_eq_add, ← two_mul, ← mul_assoc]

/-- The slope of the chord. -/
theorem slope_of_ne {x₁ x₂ y₁ y₂ : ZMod prime} (hx : x₁ ≠ x₂) :
  weierstrass.slope x₁ x₂ y₁ y₂ = (y₂ - y₁) * (x₂ - x₁)⁻¹
  := by
  rw [WeierstrassCurve.Affine.slope_of_X_ne hx, ← neg_sub y₂, ← neg_sub x₂, neg_div_neg_eq,
    div_eq_mul_inv]

end Curve

/-- A product with the inverse is one. -/
theorem Coordinate.inverse_mul {x : Coordinate} (hx : x ≠ 0) :
  x.inverse * x = 1
  := by
  apply residue_injective
  rw [residue_mul, residue_coordinateInverse hx, residue_ofNat, Nat.cast_one]
  apply inv_mul_cancel₀ (residue_eq_zero_iff.not.mpr hx)

namespace Point

/-- The coordinates of a point satisfy the equation over the field of residues. -/
theorem nonsingular_of_onCurve {x y : Coordinate} (h : y * y = x * x * x + 7) :
  Curve.weierstrass.Nonsingular (residue x) (residue y)
  := by
  rw [Curve.nonsingular_iff]
  simpa using congrArg residue h

/-- The point of the Weierstrass curve. -/
def toCurve : Point → Curve.weierstrass.Point
  | .infinity => 0
  | .affine x y h => .some (residue x) (residue y) (nonsingular_of_onCurve h)

/-- Points that agree as points of the Weierstrass curve are equal. -/
theorem toCurve_injective :
  Function.Injective toCurve
  := by
  intro p q h
  cases p with
  | infinity =>
    cases q with
    | infinity => rfl
    | affine x y hq => cases h
  | affine x y hp =>
    cases q with
    | infinity => cases h
    | affine x' y' hq =>
      simp only [toCurve, WeierstrassCurve.Affine.Point.some.injEq, residue_injective.eq_iff] at h
      obtain ⟨rfl, rfl⟩ := h
      rfl

/-- Negation is that of the Weierstrass curve. -/
theorem toCurve_neg (p : Point) :
  p.neg.toCurve = -p.toCurve
  := by
  cases p with
  | infinity => apply (neg_zero (G := Curve.weierstrass.Point)).symm
  | affine x y h =>
    rw [neg, toCurve, toCurve, WeierstrassCurve.Affine.Point.neg_some]
    simp [WeierstrassCurve.Affine.negY, Curve.weierstrass]

/-- Doubling is addition on the Weierstrass curve, with the tangent as the line. -/
theorem toCurve_double (p : Point) :
  p.double.toCurve = p.toCurve + p.toCurve
  := by
  cases p with
  | infinity => apply (add_zero (0 : Curve.weierstrass.Point)).symm
  | affine x y h =>
    by_cases hy : y = 0
    · -- The tangent is vertical, and there is no inverse of zero.
      have hd : ¬ Coordinate.inverse (2 * y) * (2 * y) = 1 := by
        rw [hy]
        decide
      rw [double, dif_neg hd, toCurve, toCurve,
        WeierstrassCurve.Affine.Point.add_self_of_Y_eq]
      rw [Curve.negY_eq, hy]
      simp
    · have hy' : residue y ≠ 0 := residue_eq_zero_iff.not.mpr hy
      have htwice : 2 * y ≠ 0 := by
        rw [← residue_eq_zero_iff.ne]
        simpa using ⟨Curve.two_ne_zero, hy'⟩
      have hne : residue y ≠ Curve.weierstrass.negY (residue x) (residue y) := by
        rw [Curve.negY_eq]
        intro hneg
        have hsum : 2 * residue y = 0 := by linear_combination hneg
        apply hy' ((mul_eq_zero.mp hsum).resolve_left Curve.two_ne_zero)
      rw [double, dif_pos (Coordinate.inverse_mul htwice), toCurve, toCurve,
        WeierstrassCurve.Affine.Point.add_self_of_Y_ne hne,
        WeierstrassCurve.Affine.Point.some.injEq, Curve.addX_eq, Curve.addY_eq,
        Curve.slope_self hy']
      simp [residue_coordinateInverse htwice]

/-- Addition is that of the Weierstrass curve, in all of its cases. -/
theorem toCurve_add (p q : Point) :
  (p.add q).toCurve = p.toCurve + q.toCurve
  := by
  cases p with
  | infinity =>
    cases q with
    | infinity => apply (zero_add (0 : Curve.weierstrass.Point)).symm
    | affine x y h => apply (zero_add (toCurve (.affine x y h))).symm
  | affine x₁ y₁ h₁ =>
    cases q with
    | infinity => apply (add_zero (toCurve (.affine x₁ y₁ h₁))).symm
    | affine x₂ y₂ h₂ =>
      rw [add]
      split
      · next hx =>
        subst hx
        split
        · next hy =>
          subst hy
          apply toCurve_double _
        · next hy =>
          -- The chord is vertical.
          rw [toCurve, toCurve, toCurve, WeierstrassCurve.Affine.Point.add_of_Y_eq rfl]
          rw [Curve.negY_eq]
          have hfactors : (residue y₁ - residue y₂) * (residue y₁ + residue y₂) = 0 := by
            have hsquares := congrArg residue (h₁.trans h₂.symm)
            rw [residue_mul, residue_mul] at hsquares
            linear_combination hsquares
          rcases mul_eq_zero.mp hfactors with hsame | hopposite
          · apply absurd (residue_injective (sub_eq_zero.mp hsame)) hy
          · apply eq_neg_of_add_eq_zero_left hopposite
      · next hx =>
        have hx' : residue x₁ ≠ residue x₂ := residue_injective.ne hx
        have hrun : x₂ - x₁ ≠ 0 := by
          rw [← residue_eq_zero_iff.ne, residue_sub]
          apply sub_ne_zero.mpr hx'.symm
        rw [dif_pos (Coordinate.inverse_mul hrun), toCurve, toCurve, toCurve,
          WeierstrassCurve.Affine.Point.add_of_X_ne hx',
          WeierstrassCurve.Affine.Point.some.injEq, Curve.addX_eq, Curve.addY_eq,
          Curve.slope_of_ne hx']
        simp [residue_coordinateInverse hrun]

instance : Zero Point := ⟨infinity⟩

instance : Add Point := ⟨add⟩

instance : Neg Point := ⟨neg⟩

theorem infinity_eq :
  infinity = 0
  := rfl

theorem add_eq (p q : Point) :
  p.add q = p + q
  := rfl

theorem neg_eq (p : Point) :
  p.neg = -p
  := rfl

/-- The points of the curve are a commutative group. -/
instance : AddCommGroup Point where
  nsmul := nsmulRec
  zsmul := zsmulRec
  add_assoc p q r := by
    apply toCurve_injective
    rw [← add_eq, ← add_eq, ← add_eq, ← add_eq, toCurve_add, toCurve_add, toCurve_add,
      toCurve_add, add_assoc]
  zero_add p := by
    cases p with
    | infinity => rfl
    | affine x y h => rfl
  add_zero p := by
    cases p with
    | infinity => rfl
    | affine x y h => rfl
  neg_add_cancel p := by
    apply toCurve_injective
    rw [← neg_eq, ← add_eq, toCurve_add, toCurve_neg, neg_add_cancel]
    rfl
  add_comm p q := by
    apply toCurve_injective
    rw [← add_eq, ← add_eq, toCurve_add, toCurve_add, add_comm]

theorem double_eq (p : Point) :
  p.double = p + p
  := by
  apply toCurve_injective
  rw [toCurve_double, ← add_eq, toCurve_add]

/-- Repeated doubling gives the multiple. -/
theorem mulBits_eq (p : Point) (bits k : Nat) :
  p.mulBits bits k = (k % 2 ^ bits) • p
  := by
  induction bits generalizing k with
  | zero => rw [mulBits, pow_zero, Nat.mod_one, zero_nsmul, infinity_eq]
  | succ bits ih =>
    have hsplit : k % 2 ^ (bits + 1) = 2 * (k / 2 % 2 ^ bits) + k % 2 := by
      rw [pow_succ, Nat.mul_comm, Nat.mod_mul, Nat.add_comm]
    rw [mulBits, ih, double_eq, ← two_nsmul, ← mul_nsmul', hsplit]
    split
    · next hodd =>
      rw [hodd, add_nsmul, one_nsmul, add_eq]
    · next heven =>
      obtain hzero : k % 2 = 0 := by omega
      rw [hzero, add_zero]

/-- The product with a scalar is the multiple. -/
theorem mul_eq (p : Point) (k : Scalar) :
  p.mul k = k.val • p
  := by
  have hlt : k.val < 2 ^ 256 := Nat.lt_trans k.isLt (by decide)
  rw [mul, mulBits_eq, Nat.mod_eq_of_lt hlt]

end Point

end Bitcoin
