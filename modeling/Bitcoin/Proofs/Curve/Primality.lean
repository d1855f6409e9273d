import Bitcoin.Curve.Point
import Bitcoin.Proofs.Curve.Modular
import Mathlib.NumberTheory.LucasPrimality

/-!
# The field and the group are of prime order

A number is prime when some residue has its predecessor as order. To tell that, it suffices
to know the prime factors of the predecessor, and these are shown to be primes in the same
way, down to those that are small enough for trial division. So the primality of
`Curve.prime` and `Curve.order` comes from a table of such residues.
-/

namespace Bitcoin

/-- Whether a number below `350 * 350` has no divisor but one and itself. -/
def isSmallPrime (n : Nat) : Bool :=
  2 ≤ n && n < 350 * 350 && (List.range 350).all fun d => d < 2 || n ≤ d || n % d != 0

/-- Small numbers are tested by division. -/
theorem prime_of_isSmallPrime {n : Nat} (h : isSmallPrime n = true) :
  n.Prime
  := by
  rw [isSmallPrime, Bool.and_eq_true, Bool.and_eq_true, decide_eq_true_eq, decide_eq_true_eq,
    List.all_eq_true] at h
  obtain ⟨⟨htwo, hlt⟩, hdivisors⟩ := h
  rw [Nat.prime_def_le_sqrt]
  use htwo
  intro d hd hsqrt hdvd
  have hsquare : d * d ≤ n := Nat.le_sqrt.mp hsqrt
  have hdn : d < n := by nlinarith
  have hbound : d < 350 := by nlinarith
  have hrem := hdivisors d (List.mem_range.mpr hbound)
  rw [Nat.mod_eq_zero_of_dvd hdvd] at hrem
  simp only [bne_self_eq_false, Bool.or_false, Bool.or_eq_true, decide_eq_true_eq] at hrem
  omega

/-- A number, a residue modulo it, and the prime factors of its predecessor, each as often as
it divides. -/
structure Generator where
  modulus : Nat
  residue : Nat
  factors : List Nat

namespace Generator

/-- The power of the residue. -/
def power (g : Generator) (e : Nat) : Nat :=
  Modular.power g.modulus g.residue 256 e

/-- Whether the residue has the predecessor of the modulus as order. -/
def generates (g : Generator) : Bool :=
  2 ≤ g.modulus && g.modulus < 2 ^ 256 && g.factors.prod = g.modulus - 1
    && g.power (g.modulus - 1) = 1
    && g.factors.all fun q => g.power ((g.modulus - 1) / q) ≠ 1

/-- Powers that are computed are powers of the residue. -/
theorem cast_residue_pow_eq_one_iff {g : Generator} (htwo : 2 ≤ g.modulus) {e : Nat}
    (he : e < 2 ^ 256) :
  (g.residue : ZMod g.modulus) ^ e = 1 ↔ g.power e = 1
  := by
  rw [power, Modular.power_eq he, ← Nat.cast_pow, ← Nat.cast_one, ZMod.natCast_eq_natCast_iff,
    Nat.ModEq, Nat.mod_eq_of_lt htwo]

/-- A modulus with a residue of the greatest possible order is prime. -/
theorem prime_of_generates {g : Generator} (h : g.generates = true)
    (hfactors : ∀ q ∈ g.factors, q.Prime) :
  g.modulus.Prime
  := by
  simp only [generates, Bool.and_eq_true, decide_eq_true_eq, List.all_eq_true] at h
  obtain ⟨⟨⟨⟨htwo, hlt⟩, hprod⟩, hone⟩, hne⟩ := h
  apply lucas_primality g.modulus g.residue
  · rw [cast_residue_pow_eq_one_iff htwo (by omega)]
    apply hone
  · intro q hq hdvd
    rw [← hprod, Prime.dvd_prod_iff hq.prime] at hdvd
    obtain ⟨factor, hfactor, hdvd⟩ := hdvd
    obtain rfl := (Nat.prime_dvd_prime_iff_eq hq (hfactors factor hfactor)).mp hdvd
    have he : (g.modulus - 1) / q < 2 ^ 256 := Nat.lt_of_le_of_lt (Nat.div_le_self _ _) (by omega)
    rw [ne_eq, cast_residue_pow_eq_one_iff htwo he]
    apply hne q hfactor

/-- Whether each of the residues is of the greatest possible order, by factors that are small
or are moduli of residues behind it. -/
def descend : List Generator → Bool
  | [] => true
  | g :: rest =>
    g.generates && g.factors.all (fun q => isSmallPrime q || rest.any fun g' => g'.modulus = q)
      && descend rest

/-- In a table that descends, each modulus is prime if the moduli behind it are. -/
theorem prime_of_descend {table : List Generator} (h : descend table = true) :
  ∀ g ∈ table, g.modulus.Prime
  := by
  induction table with
  | nil =>
    intro g hg
    cases hg
  | cons first rest ih =>
    rw [descend, Bool.and_eq_true, Bool.and_eq_true, List.all_eq_true] at h
    obtain ⟨⟨hgenerates, hfactors⟩, hrest⟩ := h
    have hprimes := ih hrest
    rw [List.forall_mem_cons]
    refine ⟨prime_of_generates hgenerates ?_, hprimes⟩
    intro q hq
    rcases Bool.or_eq_true_iff.mp (hfactors q hq) with hsmall | hknown
    · apply prime_of_isSmallPrime hsmall
    · obtain ⟨g, hg, hmodulus⟩ := List.any_eq_true.mp hknown
      obtain rfl := of_decide_eq_true hmodulus
      apply hprimes g hg

end Generator

namespace Curve

/-- Residues that show `Curve.prime` and `Curve.order` to be primes. -/
def generators : List Generator :=
  [⟨prime, 3, [2, 3, 7, 13441,
      205115282021455665897114700593932402728804164701536103180137503955397371]⟩,
    ⟨order, 7, [2, 2, 2, 2, 2, 2, 3, 149, 631, 107361793816595537, 174723607534414371449,
      341948486974166000522343609283189]⟩,
    ⟨205115282021455665897114700593932402728804164701536103180137503955397371, 10,
      [2, 3, 5, 29, 29, 31, 7723, 132896956044521568488119,
        255515944373312847190720520512484175977]⟩,
    ⟨255515944373312847190720520512484175977, 3,
      [2, 2, 2, 7, 7, 11, 1627, 2657, 4423, 41201, 96557, 7240687, 107590001]⟩,
    ⟨341948486974166000522343609283189, 2,
      [2, 2, 3, 3, 3, 109, 29047611873442575647497758179]⟩,
    ⟨29047611873442575647497758179, 2, [2, 293, 305873, 545358713, 297159362677]⟩,
    ⟨132896956044521568488119, 6, [2, 3, 22149492674086928081353]⟩,
    ⟨22149492674086928081353, 5, [2, 2, 2, 3, 5323, 173378833005251801]⟩,
    ⟨174723607534414371449, 3, [2, 2, 2, 17, 59, 4051, 120233, 44706919]⟩,
    ⟨173378833005251801, 6, [2, 2, 2, 5, 5, 2621, 24809, 13331831]⟩,
    ⟨107361793816595537, 3, [2, 2, 2, 2, 16699, 85831, 4681609]⟩,
    ⟨297159362677, 2, [2, 2, 3, 3, 11, 461, 1627771]⟩,
    ⟨545358713, 5, [2, 2, 2, 41, 59, 28181]⟩,
    ⟨107590001, 3, [2, 2, 2, 2, 5, 5, 5, 5, 7, 29, 53]⟩,
    ⟨44706919, 6, [2, 3, 797, 9349]⟩,
    ⟨13331831, 13, [2, 5, 971, 1373]⟩,
    ⟨7240687, 3, [2, 3, 1206781]⟩,
    ⟨4681609, 23, [2, 2, 2, 3, 97, 2011]⟩,
    ⟨1627771, 3, [2, 3, 5, 29, 1871]⟩,
    ⟨1206781, 10, [2, 2, 3, 5, 20113]⟩,
    ⟨305873, 3, [2, 2, 2, 2, 7, 2731]⟩]

/-- The table for the two moduli of the curve is such a table. -/
theorem descend_generators :
  Generator.descend generators = true
  := by
  decide +kernel

/-- The coordinates form a field. -/
theorem prime_prime :
  prime.Prime
  := Generator.prime_of_descend descend_generators _ List.mem_cons_self

/-- The order of the group is prime. -/
theorem prime_order :
  order.Prime
  := Generator.prime_of_descend descend_generators _ (List.mem_cons_of_mem _ List.mem_cons_self)

end Curve

end Bitcoin
