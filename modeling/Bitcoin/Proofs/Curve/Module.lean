import Bitcoin.Proofs.Curve.Order
import Bitcoin.Proofs.Curve.Scalar
import Bitcoin.Signature.Basic

/-!
# Scalars and points form a module

Scalars add and multiply as integers modulo the order do, points are a commutative group, and the
multiples of points by scalars go together with both (`CurveOperations.IsModule`). The law that the
multiple by a sum is the sum of the multiples holds of every point, because the order of the group
takes every point to the neutral element.

The operations can be made from an arithmetic that knows neither zero nor the point at infinity, and
fails where its result would be one of them (`NonzeroArithmetic`). The operations that are made from
it by case distinctions (`NonzeroArithmetic.operations`) are those on all scalars and points
(`NonzeroArithmetic.operations_eq`), and so have the same laws (`Curve.operations_form_module`).
-/

namespace Bitcoin

/-! ### Operations -/

/-- Operations on scalars and points. -/
structure CurveOperations where
  addScalars : Scalar → Scalar → Scalar
  mulScalars : Scalar → Scalar → Scalar
  negScalar : Scalar → Scalar
  addPoints : Point → Point → Point
  negPoint : Point → Point
  mulPoint : Point → Scalar → Point
  generator : Point
  mulGenerator : Scalar → Point

/-- Whether scalars are the integers modulo the order and points a module over them. Of a scalar
that is not zero and its negative, exactly one is high. -/
structure CurveOperations.IsModule (operations : CurveOperations) : Prop where
  val_addScalars : ∀ a b, (operations.addScalars a b).val = (a.val + b.val) % Curve.order
  val_mulScalars : ∀ a b, (operations.mulScalars a b).val = a.val * b.val % Curve.order
  val_negScalar : ∀ a, ((operations.negScalar a).val : Int) = -(a.val : Int) % Curve.order
  isHigh_negScalar : ∀ a, a ≠ 0 → (operations.negScalar a).isHigh = !a.isHigh
  addPoints_comm : ∀ p q, operations.addPoints p q = operations.addPoints q p
  addPoints_assoc : ∀ p q r,
    operations.addPoints (operations.addPoints p q) r
      = operations.addPoints p (operations.addPoints q r)
  addPoints_infinity : ∀ p, operations.addPoints p .infinity = p
  addPoints_negPoint : ∀ p, operations.addPoints p (operations.negPoint p) = .infinity
  mulPoint_one : ∀ p, operations.mulPoint p 1 = p
  mulPoint_addPoints : ∀ p q a,
    operations.mulPoint (operations.addPoints p q) a
      = operations.addPoints (operations.mulPoint p a) (operations.mulPoint q a)
  mulPoint_addScalars : ∀ p a b,
    operations.mulPoint p (operations.addScalars a b)
      = operations.addPoints (operations.mulPoint p a) (operations.mulPoint p b)
  mulPoint_mulScalars : ∀ p a b,
    operations.mulPoint p (operations.mulScalars a b)
      = operations.mulPoint (operations.mulPoint p b) a
  mulGenerator_eq : ∀ a,
    operations.mulGenerator a = operations.mulPoint operations.generator a

/-- The operations of scalars and points. -/
def Curve.operations : CurveOperations where
  addScalars a b := a + b
  mulScalars a b := a * b
  negScalar a := -a
  addPoints := Point.add
  negPoint := Point.neg
  mulPoint := Point.mul
  generator := Point.generator
  mulGenerator := Point.mulGenerator

/-! ### The laws -/

/-- The negative of a scalar is its residue modulo the order. -/
theorem Scalar.cast_val_neg (a : Scalar) :
  ((-a).val : Int) = -(a.val : Int) % Curve.order
  := by
  rw [Fin.neg_def, Int.natCast_mod, Nat.cast_sub (Nat.le_of_lt a.isLt), sub_eq_neg_add,
    Int.add_emod_right]

namespace Point

/-- Factors count up to the order. -/
theorem mod_order_nsmul (p : Point) (k : Nat) :
  (k % Curve.order) • p = k • p
  := by
  conv_rhs => rw [← Nat.div_add_mod k Curve.order, add_nsmul, mul_nsmul, order_nsmul, nsmul_zero,
    zero_add]

/-- One is neutral, for points. -/
theorem mul_one (p : Point) :
  p.mul 1 = p
  := by
  rw [mul_eq]
  apply one_nsmul p

/-- A sum of scalars acts as the sum of its actions. -/
theorem mul_add (p : Point) (a b : Scalar) :
  p.mul (a + b) = (p.mul a).add (p.mul b)
  := by
  rw [mul_eq, mul_eq, mul_eq, add_eq, Fin.val_add, mod_order_nsmul, add_nsmul]

/-- A product of scalars acts as one factor after the other. -/
theorem mul_mul (p : Point) (a b : Scalar) :
  p.mul (a * b) = (p.mul b).mul a
  := by
  rw [mul_eq, mul_eq, mul_eq, Fin.val_mul, mod_order_nsmul, mul_nsmul']

/-- A scalar acts on a sum of points as on each of them. -/
theorem add_mul (p q : Point) (a : Scalar) :
  (p.add q).mul a = (p.mul a).add (q.mul a)
  := by
  rw [mul_eq, mul_eq, mul_eq, add_eq, add_eq, nsmul_add]

end Point

/-- The operations of the program are those of a module over the scalars. -/
theorem Curve.isModule_operations :
  operations.IsModule
  where
  val_addScalars := Fin.val_add
  val_mulScalars := Fin.val_mul
  val_negScalar := Scalar.cast_val_neg
  isHigh_negScalar _ := Scalar.isHigh_neg
  addPoints_comm p q := add_comm p q
  addPoints_assoc p q r := add_assoc p q r
  addPoints_infinity p := add_zero p
  addPoints_negPoint p := add_neg_cancel p
  mulPoint_one p := by
    dsimp only [operations]
    rw [Point.mul_one]
  mulPoint_addPoints := Point.add_mul
  mulPoint_addScalars := Point.mul_add
  mulPoint_mulScalars := Point.mul_mul
  mulGenerator_eq _ := rfl

/-! ### Arithmetic without zero and infinity -/

/-- The values but for an excluded one. -/
abbrev Excluding {α : Type} (excluded : α) := { a : α // a ≠ excluded }

namespace Excluding

variable {α β : Type} [DecidableEq α] {excluded a : α}

/-- A function of the values that are not excluded, extended by a result for the one that is. -/
def extend (f : Excluding excluded → β) (result : β) (a : α) : β :=
  if h : a = excluded then result else f ⟨a, h⟩

/-- A value, if it is not the excluded one. -/
def of? (excluded a : α) : Option (Excluding excluded) :=
  extend some none a

/-- The value that has been found, or else the excluded one. -/
def restore (found : Option (Excluding excluded)) : α :=
  found.elim excluded Subtype.val

theorem extend_eq {f : Excluding excluded → β} {result b : β}
    (hexcluded : a = excluded → result = b) (h : ∀ ha : a ≠ excluded, f ⟨a, ha⟩ = b) :
  extend f result a = b
  := by
  rw [extend]
  split
  · next ha => exact hexcluded ha
  · next ha => exact h ha

/-- What is left out is the excluded value alone. -/
theorem of?_eq_some_iff {r : Excluding excluded} :
  of? excluded a = some r ↔ r.val = a
  := by
  rw [of?, extend]
  split
  · next ha =>
    constructor
    · rintro ⟨⟩
    · intro hr
      apply absurd (hr.trans ha) r.property
  · rw [Option.some.injEq, Subtype.ext_iff, eq_comm]

/-- What finds a value exactly where that is not the excluded one restores it. -/
theorem restore_eq {found : Option (Excluding excluded)} (h : ∀ r, found = some r ↔ r.val = a) :
  restore found = a
  := by
  cases found with
  | some r => exact (h r).mp rfl
  | none =>
    by_contra hne
    cases (h ⟨a, Ne.symm hne⟩).mpr rfl

end Excluding

/-- A point that is not the one at infinity. -/
abbrev AffinePoint := Excluding Point.infinity

/-- Arithmetic of scalars that are not zero and points that are not the one at infinity. -/
structure NonzeroArithmetic where
  addTweak? : NonzeroScalar → Scalar → Option NonzeroScalar
  mulTweak? : NonzeroScalar → Scalar → Option NonzeroScalar
  negate : NonzeroScalar → NonzeroScalar
  publicPoint : NonzeroScalar → AffinePoint
  combine? : AffinePoint → AffinePoint → Option AffinePoint
  mulTweakPoint? : AffinePoint → Scalar → Option AffinePoint
  negatePoint : AffinePoint → AffinePoint

namespace NonzeroArithmetic

/-- Whether the arithmetic is that of the integers modulo the order and of the group of points,
and fails exactly where the result would be zero or the point at infinity. What a product with a
scalar that is zero gives is left open. -/
structure IsExact (arithmetic : NonzeroArithmetic) : Prop where
  addTweak?_eq_some_iff : ∀ k t r,
    arithmetic.addTweak? k t = some r ↔ r.val.val = (k.val.val + t.val) % Curve.order
  mulTweak?_eq_some_iff : ∀ k t r, t ≠ 0 →
    (arithmetic.mulTweak? k t = some r ↔ r.val.val = k.val.val * t.val % Curve.order)
  negate_eq : ∀ k, (arithmetic.negate k).val.val = Curve.order - k.val.val
  publicPoint_eq : ∀ k, (arithmetic.publicPoint k).val = k.val.val • Point.generator
  combine?_eq_some_iff : ∀ p q r,
    arithmetic.combine? p q = some r ↔ r.val = p.val + q.val
  mulTweakPoint?_eq_some_iff : ∀ p t r, t ≠ 0 →
    (arithmetic.mulTweakPoint? p t = some r ↔ r.val = t.val • p.val)
  negatePoint_eq : ∀ p, (arithmetic.negatePoint p).val = -p.val

open Excluding

section Operations

variable (arithmetic : NonzeroArithmetic)

/-- The sum of two scalars. Only the first one is told apart from zero. -/
def addScalars (a b : Scalar) : Scalar :=
  extend (fun k => restore (arithmetic.addTweak? k b)) b a

/-- The product of two scalars. -/
def mulScalars (a b : Scalar) : Scalar :=
  extend (fun k => extend (fun t : NonzeroScalar => restore (arithmetic.mulTweak? k t.val)) 0 b) 0 a

/-- The negative of a scalar. -/
def negScalar (a : Scalar) : Scalar :=
  extend (fun k => (arithmetic.negate k).val) 0 a

/-- The sum of two points. -/
def addPoints (p q : Point) : Point :=
  extend (fun p' => extend (fun q' => restore (arithmetic.combine? p' q')) p q) q p

/-- The negative of a point. -/
def negPoint (p : Point) : Point :=
  extend (fun p' => (arithmetic.negatePoint p').val) .infinity p

/-- The multiple of a point by a scalar. -/
def mulPoint (p : Point) (a : Scalar) : Point :=
  extend (fun p' => extend (fun t : NonzeroScalar => restore (arithmetic.mulTweakPoint? p' t.val))
    .infinity a) .infinity p

/-- The multiple of the generator by a scalar. -/
def mulGenerator (a : Scalar) : Point :=
  extend (fun k => (arithmetic.publicPoint k).val) .infinity a

/-- The operations on all scalars and points. The generator is its own multiple by one. -/
def operations : CurveOperations where
  addScalars := arithmetic.addScalars
  mulScalars := arithmetic.mulScalars
  negScalar := arithmetic.negScalar
  addPoints := arithmetic.addPoints
  negPoint := arithmetic.negPoint
  mulPoint := arithmetic.mulPoint
  generator := arithmetic.mulGenerator 1
  mulGenerator := arithmetic.mulGenerator

end Operations

section Exact

variable {arithmetic : NonzeroArithmetic} (hexact : arithmetic.IsExact)

include hexact

/-- Addition of a library without zero, extended by zero. -/
theorem addScalars_eq (a b : Scalar) :
  arithmetic.addScalars a b = a + b
  := by
  apply extend_eq
  · rintro rfl
    rw [Fin.zero_add]
  · intro ha
    apply restore_eq
    intro r
    rw [hexact.addTweak?_eq_some_iff, ← Fin.val_add, Fin.ext_iff]

theorem mulScalars_eq (a b : Scalar) :
  arithmetic.mulScalars a b = a * b
  := by
  apply extend_eq
  · rintro rfl
    rw [Fin.zero_mul]
  · intro ha
    apply extend_eq
    · rintro rfl
      rw [Fin.mul_zero]
    · intro hb
      apply restore_eq
      intro r
      rw [hexact.mulTweak?_eq_some_iff _ _ _ hb, ← Fin.val_mul, Fin.ext_iff]

theorem negScalar_eq (a : Scalar) :
  arithmetic.negScalar a = -a
  := by
  apply extend_eq
  · rintro rfl
    decide
  · intro ha
    rw [Fin.ext_iff, hexact.negate_eq, Scalar.val_neg ha]

theorem addPoints_eq (p q : Point) :
  arithmetic.addPoints p q = p.add q
  := by
  rw [Point.add_eq]
  apply extend_eq
  · rintro rfl
    rw [Point.infinity_eq, zero_add]
  · intro hp
    apply extend_eq
    · rintro rfl
      rw [Point.infinity_eq, add_zero]
    · intro hq
      apply restore_eq
      intro r
      rw [hexact.combine?_eq_some_iff]

theorem negPoint_eq (p : Point) :
  arithmetic.negPoint p = p.neg
  := by
  apply extend_eq
  · rintro rfl
    rfl
  · intro hp
    rw [hexact.negatePoint_eq, Point.neg_eq]

/-- Multiplication of points of a library without infinity, extended by it. -/
theorem mulPoint_eq (p : Point) (a : Scalar) :
  arithmetic.mulPoint p a = p.mul a
  := by
  rw [Point.mul_eq]
  apply extend_eq
  · rintro rfl
    rw [Point.infinity_eq, nsmul_zero]
  · intro hp
    apply extend_eq
    · rintro rfl
      rw [Point.infinity_eq]
      exact (zero_nsmul p).symm
    · intro ha
      apply restore_eq
      intro r
      rw [hexact.mulTweakPoint?_eq_some_iff _ _ _ ha]

theorem mulGenerator_eq (a : Scalar) :
  arithmetic.mulGenerator a = Point.mulGenerator a
  := by
  apply extend_eq
  · rintro rfl
    rw [Point.mulGenerator_zero]
  · intro ha
    rw [hexact.publicPoint_eq, Point.mulGenerator_eq]

/-- Extended by zero and infinity, an exact arithmetic is that of the program. -/
theorem operations_eq :
  arithmetic.operations = Curve.operations
  := by
  have hgenerator : arithmetic.mulGenerator 1 = Point.generator := by
    rw [mulGenerator_eq hexact, Point.mulGenerator, Point.mul_one]
  rw [operations, Curve.operations, hgenerator, funext₂ (addScalars_eq hexact),
    funext₂ (mulScalars_eq hexact), funext (negScalar_eq hexact), funext₂ (addPoints_eq hexact),
    funext (negPoint_eq hexact), funext₂ (mulPoint_eq hexact), funext (mulGenerator_eq hexact)]

end Exact

/-- The arithmetic of the operations themselves, as far as they give neither zero nor the point at
infinity. -/
def ofCurve : NonzeroArithmetic where
  addTweak? k t := of? 0 (k.val + t)
  mulTweak? k t := of? 0 (k.val * t)
  negate := NonzeroScalar.neg
  publicPoint k := ⟨Point.mulGenerator k.val, Point.mulGenerator_ne_infinity k.property⟩
  combine? p q := of? .infinity (p.val.add q.val)
  mulTweakPoint? p t := of? .infinity (p.val.mul t)
  negatePoint p := ⟨p.val.neg, fun h => p.property (neg_eq_zero.mp h)⟩

/-- There is an exact arithmetic, that of the program itself. -/
theorem isExact_ofCurve :
  ofCurve.IsExact
  where
  addTweak?_eq_some_iff k t r := by
    rw [ofCurve, of?_eq_some_iff, Fin.ext_iff, Fin.val_add]
  mulTweak?_eq_some_iff k t r _ := by
    rw [ofCurve, of?_eq_some_iff, Fin.ext_iff, Fin.val_mul]
  negate_eq k := Scalar.val_neg k.property
  publicPoint_eq k := Point.mulGenerator_eq k.val
  combine?_eq_some_iff p q r := of?_eq_some_iff
  mulTweakPoint?_eq_some_iff p t r _ := by
    rw [ofCurve, of?_eq_some_iff, Point.mul_eq]
  negatePoint_eq p := rfl

end NonzeroArithmetic

/-- Scalars, zero among them, are the integers modulo the order, and points, the one at infinity
among them, a module over them. The operations are also those that any exact arithmetic without
zero and infinity gives. -/
theorem Curve.operations_form_module :
  operations.IsModule
    ∧ ∀ arithmetic : NonzeroArithmetic, arithmetic.IsExact → arithmetic.operations = operations
  := ⟨isModule_operations, fun _ hexact => NonzeroArithmetic.operations_eq hexact⟩

/-- Where the arithmetic fails, the operations give zero and the point at infinity. -/
theorem Curve.operations_form_module_ofCurve :
  NonzeroArithmetic.ofCurve.IsExact
    ∧ NonzeroArithmetic.ofCurve.operations.addScalars (-1) 1 = 0
    ∧ NonzeroArithmetic.ofCurve.operations.addPoints Point.generator Point.generator.neg
      = .infinity
  := by
  have hexact := NonzeroArithmetic.isExact_ofCurve
  rw [operations_form_module.2 _ hexact]
  refine ⟨hexact, by decide, operations_form_module.1.addPoints_negPoint Point.generator⟩

end Bitcoin
