import Bitcoin.Curve.Scalar

/-!
# Negatives of scalars

The order is odd, and so of a scalar that is not zero and its negative exactly one is greater than
half of the order (`Scalar.isHigh_neg`).
-/

namespace Bitcoin.Scalar

variable {k : Scalar}

/-- The negative of a scalar is what is missing to the order. -/
theorem val_neg (hk : k ≠ 0) :
  (-k).val = Curve.order - k.val
  := by
  have hpos : 0 < k.val := Nat.pos_of_ne_zero fun h => hk (Fin.ext h)
  rw [Fin.neg_def]
  apply Nat.mod_eq_of_lt
  apply Nat.sub_lt (by decide) hpos

/-- Of a scalar and its negative, exactly one is high, since the order is odd. -/
theorem isHigh_neg (hk : k ≠ 0) :
  (-k).isHigh = !k.isHigh
  := by
  have hlt := k.isLt
  have hodd : Curve.order = Curve.order / 2 + Curve.order / 2 + 1 := by decide
  rw [isHigh, isHigh, val_neg hk, ← decide_not, decide_eq_decide]
  omega

end Bitcoin.Scalar
