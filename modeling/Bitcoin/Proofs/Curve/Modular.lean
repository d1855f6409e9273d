import Bitcoin.Curve.Modular
import Mathlib.Data.Int.ModEq
import Mathlib.Tactic.Linarith
import Mathlib.Tactic.Ring

/-!
# Inverses and powers are what they should be

Each coefficient that the algorithm of Euclid keeps, multiplied by the argument, is congruent
to its remainder, and the last one is the greatest common divisor
(`Modular.euclid_mul_modEq`). So `Modular.inverse` is an inverse of every number that is
coprime to the modulus. `Modular.power` is the power.
-/

namespace Bitcoin.Modular

/-- Two steps halve the remainders: the product of two neighbours is halved by each. -/
theorem two_mul_mod_lt {r₀ r₁ : Nat} (hpos : 0 < r₁) (hle : r₁ ≤ r₀) :
  2 * (r₀ % r₁) < r₀
  := by
  have hlt := Nat.mod_lt r₀ hpos
  have hdiv := Nat.div_add_mod r₀ r₁
  have hquotient : 0 < r₀ / r₁ := Nat.div_pos hle hpos
  have hmul : r₁ * 1 ≤ r₁ * (r₀ / r₁) := Nat.mul_le_mul_left r₁ hquotient
  omega

/-- The loop keeps its two congruences, and has enough steps to come to the common divisor. -/
theorem euclid_mul_modEq
    {m a : Int} {steps r₀ r₁ : Nat} {s₀ s₁ : Int} (hlt : r₁ < r₀) (hsteps : r₀ * r₁ < 2 ^ steps)
    (h₀ : s₀ * a ≡ r₀ [ZMOD m]) (h₁ : s₁ * a ≡ r₁ [ZMOD m]) :
  euclid steps r₀ s₀ r₁ s₁ * a ≡ (Nat.gcd r₀ r₁ : Nat) [ZMOD m]
  := by
  induction steps generalizing r₀ r₁ s₀ s₁ with
  | zero =>
    have hzero : r₁ = 0 := by
      rcases Nat.eq_zero_or_pos r₁ with h | h
      · apply h
      · have hpos : 0 < r₀ * r₁ := Nat.mul_pos (Nat.lt_trans h hlt) h
        omega
    subst hzero
    rw [Nat.gcd_zero_right]
    apply h₀
  | succ steps ih =>
    rw [euclid]
    split
    · next hzero =>
      subst hzero
      rw [Nat.gcd_zero_right]
      apply h₀
    · next hne =>
      have hpos : 0 < r₁ := Nat.pos_of_ne_zero hne
      have hhalf := two_mul_mod_lt hpos (Nat.le_of_lt hlt)
      have hproduct : r₁ * (r₀ % r₁) < 2 ^ steps := by
        have hmul : r₁ * (2 * (r₀ % r₁)) ≤ r₁ * r₀ := Nat.mul_le_mul_left r₁ (Nat.le_of_lt hhalf)
        rw [pow_succ, Nat.mul_comm r₀ r₁] at hsteps
        have e : r₁ * (2 * (r₀ % r₁)) = 2 * (r₁ * (r₀ % r₁)) := by ring
        omega
      have hrest : (s₀ - (r₀ / r₁ : Nat) * s₁) * a ≡ (r₀ % r₁ : Nat) [ZMOD m] := by
        have hdiff := h₀.sub (h₁.mul_left (r₀ / r₁ : Nat))
        have hleft : (s₀ - (r₀ / r₁ : Nat) * s₁) * a
            = s₀ * a - (r₀ / r₁ : Nat) * (s₁ * a) := by ring
        have hright : ((r₀ % r₁ : Nat) : Int) = (r₀ : Int) - (r₀ / r₁ : Nat) * (r₁ : Int) := by
          have hdiv := Int.emod_add_mul_ediv (r₀ : Int) r₁
          push_cast
          linarith
        rw [hleft, hright]
        apply hdiff
      have hgcd : Nat.gcd r₀ r₁ = Nat.gcd r₁ (r₀ % r₁) := by
        rw [Nat.gcd_comm r₀ r₁, Nat.gcd_rec r₁ r₀, Nat.gcd_comm]
      rw [hgcd]
      apply ih (Nat.mod_lt r₀ hpos) hproduct h₁ hrest

/-- The inverse of a number that is coprime to the modulus. -/
theorem inverse_mul_mod {m a : Nat} (hm : 1 < m) (h : Nat.Coprime a m) :
  inverse m a * a % m = 1
  := by
  have hlt : a % m < m := Nat.mod_lt a (by omega)
  have hsteps : m * (a % m) < 2 ^ (2 * m.log2 + 4) := by
    have hlog : m < 2 ^ (m.log2 + 1) := Nat.lt_log2_self
    have hproduct : m * (a % m) < 2 ^ (m.log2 + 1) * 2 ^ (m.log2 + 1) :=
      Nat.mul_lt_mul_of_lt_of_le hlog (Nat.le_of_lt (Nat.lt_trans hlt hlog)) (by positivity)
    apply Nat.lt_of_lt_of_le hproduct
    rw [← pow_add]
    apply Nat.pow_le_pow_right (by decide)
    omega
  have h₀ : (0 : Int) * a ≡ m [ZMOD m] := by
    rw [zero_mul]
    apply (Int.modEq_zero_iff_dvd.mpr dvd_rfl).symm
  have h₁ : (1 : Int) * a ≡ (a % m : Nat) [ZMOD m] := by
    rw [one_mul, Int.natCast_mod]
    apply (Int.mod_modEq _ _).symm
  have hgcd : Nat.gcd m (a % m) = 1 := by
    rw [Nat.gcd_comm, ← Nat.gcd_rec, Nat.gcd_comm]
    apply h
  have heuclid := euclid_mul_modEq hlt hsteps h₀ h₁
  rw [hgcd] at heuclid
  have hm' : (m : Int) ≠ 0 := by omega
  have hresidue : ((inverse m a : Nat) : Int) = euclid (2 * m.log2 + 4) m 0 (a % m) 1 % m := by
    rw [inverse, Int.toNat_of_nonneg (Int.emod_nonneg _ hm')]
  have hproduct : ((inverse m a * a : Nat) : Int) ≡ (1 : Nat) [ZMOD m] := by
    rw [Nat.cast_mul, hresidue]
    apply ((Int.mod_modEq _ _).mul_right _).trans heuclid
  rw [Int.natCast_modEq_iff] at hproduct
  rw [Nat.ModEq, Nat.mod_eq_of_lt hm] at hproduct
  apply hproduct

/-- The power to an exponent of so many bits. -/
theorem power_eq {m a bits e : Nat} (h : e < 2 ^ bits) :
  power m a bits e = a ^ e % m
  := by
  induction bits generalizing e with
  | zero =>
    obtain rfl : e = 0 := by omega
    rfl
  | succ bits ih =>
    have hhalf : e / 2 < 2 ^ bits := by
      rw [pow_succ] at h
      omega
    have hsquare : a ^ (e / 2) % m * (a ^ (e / 2) % m) % m = a ^ (2 * (e / 2)) % m := by
      rw [← Nat.mul_mod, ← pow_add, two_mul]
    rw [power, ih hhalf, hsquare]
    split
    · next hodd =>
      have e' : e = 2 * (e / 2) + 1 := by omega
      rw [Nat.mod_mul_mod, ← pow_succ, ← e']
    · next heven =>
      have e' : e = 2 * (e / 2) := by omega
      rw [← e']

end Bitcoin.Modular
