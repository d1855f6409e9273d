import Mathlib.Data.List.Forall2
import Mathlib.Tactic.Use

/-!
# Sequences of operations that may fail

A sequence of operations has a value exactly when each operation has one.
-/

namespace Bitcoin

variable {ε α β : Type}

/-- Two computations in a row succeed when both do. -/
theorem bind_eq_ok_iff {x : Except ε α} {f : α → Except ε β} {b : β} :
  (x >>= f) = .ok b ↔ ∃ a, x = .ok a ∧ f a = .ok b
  := by
  cases x with
  | error e =>
    constructor
    · rintro ⟨⟩
    · rintro ⟨_, ⟨⟩, _⟩
  | ok a =>
    constructor
    · exact fun h => ⟨a, rfl, h⟩
    · rintro ⟨_, ⟨⟩, h⟩
      apply h

/-- A sequence fails where one of its operations does. -/
theorem bind_eq_error_iff {x : Except ε α} {f : α → Except ε β} {e : ε} :
  (x >>= f) = .error e ↔ x = .error e ∨ ∃ a, x = .ok a ∧ f a = .error e
  := by
  cases x with
  | error e' =>
    constructor
    · rintro ⟨⟩
      exact .inl rfl
    · rintro (h | ⟨_, ⟨⟩, _⟩)
      cases h
      rfl
  | ok a =>
    constructor
    · exact fun h => .inr ⟨a, rfl, h⟩
    · rintro (h | ⟨_, ⟨⟩, hf⟩)
      · cases h
      · apply hf

/-- An operation fails exactly if it has no value. -/
theorem exists_eq_error_iff {x : Except ε α} :
  (∃ e, x = .error e) ↔ ¬ ∃ a, x = .ok a
  := by
  cases x with
  | error e => simp
  | ok a => simp

/-- A result that is changed afterwards is that of a computation that has succeeded. -/
theorem map_eq_ok_iff {x : Except ε α} {f : α → β} {b : β} :
  x.map f = .ok b ↔ ∃ a, x = .ok a ∧ f a = b
  := by
  cases x with
  | error e =>
    constructor
    · rintro ⟨⟩
    · rintro ⟨_, ⟨⟩, _⟩
  | ok a =>
    constructor
    · intro h
      cases h
      exact ⟨a, rfl, rfl⟩
    · rintro ⟨_, ⟨⟩, rfl⟩
      rfl

/-- The operation in front has a value, and so the sequence goes on with it. -/
theorem bind_of_eq_ok {x : Except ε α} {a : α} (h : x = .ok a) (f : α → Except ε β) :
  (x >>= f) = f a
  := by
  rw [h]
  rfl

theorem bind_of_eq_some {x : Option α} {a : α} (h : x = some a) (f : α → Option β) :
  (x >>= f) = f a
  := by
  rw [h]
  rfl

/-- A value that can be computed is the value of the operation. -/
theorem eq_ok_of_toOption {x : Except ε α} {a : α} (h : x.toOption = some a) :
  x = .ok a
  := by
  cases x with
  | error e => cases h
  | ok a' => exact congrArg Except.ok (Option.some.inj h)

/-- A list of operations has the list of their values. -/
theorem mapM_eq_ok_iff {f : α → Except ε β} {xs : List α} {ys : List β} :
  xs.mapM f = .ok ys ↔ List.Forall₂ (fun x y => f x = .ok y) xs ys
  := by
  induction xs generalizing ys with
  | nil =>
    rw [List.mapM_nil]
    constructor
    · rintro ⟨⟩
      exact .nil
    · rintro ⟨⟩
      rfl
  | cons x xs ih =>
    rw [List.mapM_cons, bind_eq_ok_iff]
    constructor
    · rintro ⟨y, hy, h⟩
      obtain ⟨ys, hys, h⟩ := bind_eq_ok_iff.mp h
      cases h
      exact .cons hy (ih.mp hys)
    · rintro ⟨⟩
      next y ys hy hys => exact ⟨y, hy, bind_eq_ok_iff.mpr ⟨ys, ih.mpr hys, rfl⟩⟩

/-- Each element that was mapped has a value. -/
theorem exists_of_mem_of_mapM {f : α → Except ε β} {xs : List α} {ys : List β}
    (h : xs.mapM f = .ok ys) {x : α} (hx : x ∈ xs) :
  ∃ y, f x = .ok y
  := by
  have hall := mapM_eq_ok_iff.mp h
  clear h
  induction hall with
  | nil => cases hx
  | @cons a b as bs hab _ ih =>
    rcases List.mem_cons.mp hx with rfl | hx
    · exact ⟨b, hab⟩
    · apply ih hx

/-- Operations that have a value on good arguments have them on lists of these. -/
theorem mapM_eq_ok_iff_of_forall {f : α → Except ε β} {good : α → Prop} {g : α → β}
    (h : ∀ x y, f x = .ok y ↔ good x ∧ y = g x) {xs : List α} {ys : List β} :
  xs.mapM f = .ok ys ↔ (∀ x ∈ xs, good x) ∧ ys = xs.map g
  := by
  rw [mapM_eq_ok_iff]
  constructor
  · intro hall
    induction hall with
    | nil => exact ⟨by simp, rfl⟩
    | cons hy _ ih =>
      obtain ⟨hgood, rfl⟩ := (h _ _).mp hy
      obtain ⟨hgoods, rfl⟩ := ih
      exact ⟨List.forall_mem_cons.mpr ⟨hgood, hgoods⟩, rfl⟩
  · rintro ⟨hgoods, rfl⟩
    rw [List.forall₂_map_right_iff, List.forall₂_same]
    exact fun x hx => (h _ _).mpr ⟨hgoods x hx, rfl⟩

/-- Operations that have values have the list of these. -/
theorem mapM_eq_some_of_forall {f : α → Option β} {g : α → β} {xs : List α}
    (h : ∀ x ∈ xs, f x = some (g x)) :
  xs.mapM f = some (xs.map g)
  := by
  induction xs with
  | nil => rfl
  | cons x xs ih =>
    obtain ⟨hx, hxs⟩ := List.forall_mem_cons.mp h
    rw [List.mapM_cons, hx, ih hxs]
    rfl

end Bitcoin
