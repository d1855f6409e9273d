import Bitcoin.Ecdsa
import Bitcoin.Proofs.Curve.Generator
import Bitcoin.Proofs.Curve.Scalar

/-!
# Signatures are verified

A signature is made from the first coordinate of a multiple of the generator, by a nonce, and
the verifier computes the same multiple from the signature and the point of the signer. So the
signature that a secret scalar makes is verified by its multiple of the generator
(`Ecdsa.verify_sign`), and by one other point at most (`Ecdsa.eq_or_opposite_of_verify`).
-/

namespace Bitcoin

namespace NonzeroScalar

/-- The low one of a scalar and its negative has the same square. -/
theorem residue_low_sq (k : NonzeroScalar) :
  residue k.low.val ^ 2 = residue k.val ^ 2
  := by
  rw [low]
  split
  · rw [neg, residue_neg, neg_sq]
  · rfl

/-- The low one of a scalar and its negative is not high. -/
theorem isHigh_low (k : NonzeroScalar) :
  k.low.val.isHigh = false
  := by
  rw [low]
  split
  · next h => rw [neg, Scalar.isHigh_neg k.property, h, Bool.not_true]
  · next h => exact Bool.eq_false_iff.mpr h

/-- A scalar that was brought to the lower half stays there. -/
theorem low_low (k : NonzeroScalar) :
  k.low.low = k.low
  := by
  rw [low, isHigh_low]
  rfl

end NonzeroScalar

/-- Points with the same first coordinate are the same or opposite. -/
theorem Point.eq_or_eq_neg_of_x? {p q : Point} {x : Coordinate} (hp : p.x? = some x)
    (hq : q.x? = some x) :
  p = q ∨ p = q.neg
  := by
  cases p with
  | infinity => cases hp
  | affine x₁ y₁ h₁ =>
    cases q with
    | infinity => cases hq
    | affine x₂ y₂ h₂ =>
      cases hp
      cases hq
      have hsquare : residue y₁ ^ 2 = residue y₂ ^ 2 := by
        rw [sq, sq, ← residue_mul, ← residue_mul, h₁, h₂]
      rcases sq_eq_sq_iff_eq_or_eq_neg.mp hsquare with h | h
      · left
        cases residue_injective h
        rfl
      · right
        rw [← residue_neg] at h
        cases residue_injective h
        rfl

namespace Ecdsa

variable {secret nonce : Scalar} {digest : FixedBytes 32} {signature : Signature}

/-- The factor of the generator that the verifier computes, when the scalar of the signer is
known. -/
def verifiedScalar (secret : Scalar) (digest : FixedBytes 32) (signature : Signature) : Scalar :=
  digestScalar digest * signature.s.low.val.inverse
    + signature.r.val * signature.s.low.val.inverse * secret

/-- A signature is verified if the first coordinate of the multiple that the verifier computes is
its first component. -/
theorem verify_mulGenerator :
  verify (Point.mulGenerator secret) digest signature.toSecp = true
    ↔ ∃ x, (Point.mulGenerator (verifiedScalar secret digest signature)).x? = some x
      ∧ Scalar.ofNatMod x.val = signature.r.val
  := by
  rw [verify, Signature.toSecp, NonzeroScalar.isHigh_low, if_neg Bool.false_ne_true]
  dsimp only
  rw [Point.mulGenerator_add_mul, ← verifiedScalar]
  cases Point.mulGenerator (verifiedScalar secret digest signature) with
  | infinity => simp [Point.x?]
  | affine x y h => simp [Point.x?]

/-- A point and its opposite have the same first coordinate. -/
theorem x?_neg (p : Point) :
  p.neg.x? = p.x?
  := by
  cases p with
  | infinity => rfl
  | affine x y h => rfl

/-- A signature does not single out its signer: the point of another secret scalar verifies it,
too, if the scalars that the verifier computes for the two are opposite. -/
theorem verify_of_opposite {rival : Scalar}
    (hrival : digestScalar digest + signature.r.val * rival
      = -(digestScalar digest + signature.r.val * secret))
    (h : verify (Point.mulGenerator secret) digest signature.toSecp = true) :
  verify (Point.mulGenerator rival) digest signature.toSecp = true
  := by
  have hfactor : verifiedScalar rival digest signature
      = -verifiedScalar secret digest signature := by
    have hresidue := congrArg residue hrival
    apply residue_injective
    rw [verifiedScalar, verifiedScalar]
    simp only [residue_add, residue_mul, residue_neg] at hresidue ⊢
    linear_combination residue signature.s.low.val.inverse * hresidue
  rw [verify_mulGenerator] at h ⊢
  rw [hfactor, Point.mulGenerator_neg, x?_neg]
  apply h

/-- A first component that is not too small is that of one first coordinate only. -/
theorem val_eq_of_ofNatMod_eq {x : Coordinate} {r : Scalar} (h : Scalar.ofNatMod x.val = r)
    (hr : Curve.prime ≤ r.val + Curve.order) :
  x.val = r.val
  := by
  have hmod : x.val % Curve.order = r.val := congrArg Fin.val h
  have hprime : Curve.prime < 2 * Curve.order := by decide
  have hlt := x.isLt
  rcases Nat.lt_or_ge x.val Curve.order with hsmall | hgreat
  · rw [← hmod, Nat.mod_eq_of_lt hsmall]
  · rw [Nat.mod_eq_sub_mod hgreat, Nat.mod_eq_of_lt (by omega)] at hmod
    omega

/-- A signature that is verified by the points of two secret scalars is verified by no others,
unless its first component is very small: the scalars that the verifier computes are opposite. -/
theorem eq_or_opposite_of_verify {rival : Scalar}
    (hr : Curve.prime ≤ signature.r.val.val + Curve.order)
    (h : verify (Point.mulGenerator secret) digest signature.toSecp = true)
    (hrival : verify (Point.mulGenerator rival) digest signature.toSecp = true) :
  rival = secret ∨ digestScalar digest + signature.r.val * rival
      = -(digestScalar digest + signature.r.val * secret)
  := by
  obtain ⟨x, hx, hxr⟩ := verify_mulGenerator.mp h
  obtain ⟨x', hx', hxr'⟩ := verify_mulGenerator.mp hrival
  have hsame : x' = x := by
    apply Fin.ext
    rw [val_eq_of_ofNatMod_eq hxr hr, val_eq_of_ofNatMod_eq hxr' hr]
  rw [hsame] at hx'
  have hinverse : residue signature.s.low.val.inverse ≠ 0 := by
    rw [residue_scalarInverse signature.s.low.property]
    exact inv_ne_zero (residue_eq_zero_iff.not.mpr signature.s.low.property)
  have hfirst : residue signature.r.val ≠ 0 := residue_eq_zero_iff.not.mpr signature.r.property
  rcases Point.eq_or_eq_neg_of_x? hx' hx with hpoint | hpoint
  · left
    have hscalar := congrArg residue (Point.mulGenerator_injective hpoint)
    simp only [verifiedScalar, residue_add, residue_mul] at hscalar
    apply residue_injective
    apply mul_left_cancel₀ (mul_ne_zero hfirst hinverse)
    linear_combination hscalar
  · right
    rw [← Point.mulGenerator_neg] at hpoint
    have hscalar := congrArg residue (Point.mulGenerator_injective hpoint)
    simp only [verifiedScalar, residue_add, residue_mul, residue_neg] at hscalar
    apply residue_injective
    simp only [residue_add, residue_mul, residue_neg]
    apply mul_left_cancel₀ hinverse
    linear_combination hscalar

/-- The verifier's factor is the nonce of the signature or its negative. -/
theorem verifiedScalar_eq (hnonce : nonce ≠ 0)
    (hs : residue signature.s.val ^ 2
      = residue (nonce.inverse * (digestScalar digest + signature.r.val * secret)) ^ 2) :
  verifiedScalar secret digest signature = nonce
    ∨ verifiedScalar secret digest signature = -nonce
  := by
  have hk : residue nonce ≠ 0 := residue_eq_zero_iff.not.mpr hnonce
  have hlow : residue signature.s.low.val ≠ 0 :=
    residue_eq_zero_iff.not.mpr signature.s.low.property
  have hfactor : residue (verifiedScalar secret digest signature) * residue signature.s.low.val
      = residue (digestScalar digest) + residue signature.r.val * residue secret := by
    rw [verifiedScalar]
    simp only [residue_add, residue_mul, residue_scalarInverse signature.s.low.property]
    field_simp
  have hscaled : (residue signature.s.low.val * residue nonce) ^ 2
      = (residue (digestScalar digest) + residue signature.r.val * residue secret) ^ 2 := by
    rw [mul_pow, NonzeroScalar.residue_low_sq, hs]
    simp only [residue_mul, residue_add, residue_scalarInverse hnonce]
    field_simp
  rcases sq_eq_sq_iff_eq_or_eq_neg.mp hscaled with h | h
  · left
    apply residue_injective
    apply mul_right_cancel₀ hlow
    rw [hfactor, ← h, mul_comm]
  · right
    apply residue_injective
    apply mul_right_cancel₀ hlow
    rw [hfactor, residue_neg, neg_mul, mul_comm (residue nonce), h, neg_neg]

/-- A nonce is not zero, since its point has coordinates. -/
theorem ne_zero_of_mulGenerator {x y : Coordinate} {honCurve : y * y = x * x * x + 7}
    (h : Point.mulGenerator nonce = .affine x y honCurve) :
  nonce ≠ 0
  := by
  rintro rfl
  rw [Point.mulGenerator_zero] at h
  cases h

/-- What a signature with a nonce consists of. The recovery id tells whether the first coordinate
was reduced, and the parity of the second one, which is changed if the second component was
high. -/
theorem eq_of_signWithNonce? (h : signWithNonce? secret nonce digest = some signature) :
  ∃ x y honCurve hs, Point.mulGenerator nonce = .affine x y honCurve
    ∧ signature.r.val = Scalar.ofNatMod x.val
    ∧ signature.s = NonzeroScalar.low
      ⟨nonce.inverse * (digestScalar digest + signature.r.val * secret), hs⟩
    ∧ ∃ id, signature.recoveryId = some id ∧ (id.val < 2 ↔ ¬ Curve.order ≤ x.val)
      ∧ decide (id.val % 2 = 1)
        = (y.isOdd
          != (nonce.inverse * (digestScalar digest + signature.r.val * secret)).isHigh)
  := by
  rw [signWithNonce?] at h
  split at h
  · cases h
  · next x y honCurve hnonce =>
    dsimp only at h
    split at h
    · next hr =>
      split at h
      · next hs =>
        cases h
        refine ⟨x, y, honCurve, hs, hnonce, rfl, rfl, _, rfl, ?_⟩
        -- The two bits of the recovery id are the two facts.
        dsimp only
        rw [← decide_eq_false_iff_not]
        generalize decide (Curve.order ≤ x.val) = overflow
        generalize (y.isOdd != _) = odd
        cases overflow <;> cases odd <;> decide
      · cases h
    · cases h

/-- The second component of a signature with a nonce is low already. -/
theorem toSecp_of_signWithNonce? (h : signWithNonce? secret nonce digest = some signature) :
  signature.toSecp = signature
  := by
  obtain ⟨_, _, _, hs, _, _, hlow, _⟩ := eq_of_signWithNonce? h
  rw [Signature.toSecp, hlow, NonzeroScalar.low_low, ← hlow]

/-- A signature with a nonce is verified by the multiple of the generator. -/
theorem verify_of_signWithNonce? (h : signWithNonce? secret nonce digest = some signature) :
  verify (Point.mulGenerator secret) digest signature = true
  := by
  obtain ⟨x, y, honCurve, hs, hpoint, hr, hlow, _⟩ := eq_of_signWithNonce? h
  have hne := ne_zero_of_mulGenerator hpoint
  rw [← toSecp_of_signWithNonce? h, verify_mulGenerator]
  use x
  refine ⟨?_, hr.symm⟩
  have hsquare := NonzeroScalar.residue_low_sq ⟨_, hs⟩
  rw [← hlow] at hsquare
  rcases verifiedScalar_eq hne hsquare with hfactor | hfactor
  · rw [hfactor, hpoint]
    rfl
  · rw [hfactor, Point.mulGenerator_neg, x?_neg, hpoint]
    rfl

section Sign

variable (secret : NonzeroScalar) (digest : FixedBytes 32)

/-- A signature is made with some nonce. -/
theorem exists_nonce_sign :
  ∃ nonce, signWithNonce? secret.val nonce digest = some (sign secret digest)
  := (NonceChain.search secret digest _).property

/-- A signature is verified as it is made. -/
theorem toSecp_sign :
  (sign secret digest).toSecp = sign secret digest
  := by
  obtain ⟨nonce, hnonce⟩ := exists_nonce_sign secret digest
  apply toSecp_of_signWithNonce? hnonce

/-- The signature that a secret scalar makes is verified by its multiple of the generator. -/
theorem verify_sign :
  verify (Point.mulGenerator secret.val) digest (sign secret digest) = true
  := by
  obtain ⟨nonce, hnonce⟩ := exists_nonce_sign secret digest
  apply verify_of_signWithNonce? hnonce

/-- What is said of a signature is read off from the first code of the chain, if that gives it. -/
theorem apply_sign_of_attempt? {α : Type} {f : Signature → α} {a : α}
    (h : (attempt? secret digest (NonceChain.start secret.val digest).advance).map (f ·.val)
      = some a) :
  f (sign secret digest) = a
  := by
  obtain ⟨made, hmade, rfl⟩ := Option.map_eq_some_iff.mp h
  rw [sign, NonceChain.search, hmade]

end Sign

end Ecdsa

end Bitcoin
