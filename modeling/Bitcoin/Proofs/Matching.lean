import Mathlib.Data.List.NodupEquivFin
import Mathlib.Tactic.Use

/-!
# Matching a list with another one in order

`Matched good xs ys` says that each element of `xs` is good for an element of `ys` of its
own, where the chosen elements of `ys` stand in the order of `xs`. This is to say that
there is a strictly increasing map between the places (`Matched.exists_strictMono`,
`Matched.of_strictMono`).
-/

namespace Bitcoin

variable {α β : Type} {good : α → β → Prop}

/-- The elements of the first list are good for elements of the second one in order. -/
inductive Matched (good : α → β → Prop) : List α → List β → Prop where
  /-- Nothing is to be matched. -/
  | nil {ys : List β} : Matched good [] ys
  /-- The first elements are matched. -/
  | take {x : α} {y : β} {xs : List α} {ys : List β} :
      good x y → Matched good xs ys → Matched good (x :: xs) (y :: ys)
  /-- The first element of the second list is left out. -/
  | skip {y : β} {xs : List α} {ys : List β} : Matched good xs ys → Matched good xs (y :: ys)

namespace Matched

/-- Matching goes along with a map of the elements. -/
theorem map {γ : Type} {good' : γ → β → Prop} {f : α → γ} (himp : ∀ x y, good x y → good' (f x) y)
    {xs : List α} {ys : List β} (h : Matched good xs ys) :
  Matched good' (xs.map f) ys
  := by
  induction h with
  | nil => exact .nil
  | take hgood _ ih => exact .take (himp _ _ hgood) ih
  | skip _ ih => exact .skip ih

/-- Elements are matched exactly if what they are mapped to is. -/
theorem map_iff {γ δ : Type} {good' : γ → δ → Prop} {f : α → γ} {g : β → δ} {xs : List α}
    {ys : List β} :
  Matched good' (xs.map f) (ys.map g) ↔ Matched (fun x y => good' (f x) (g y)) xs ys
  := by
  constructor
  · intro h
    generalize hxs : xs.map f = images at h
    generalize hys : ys.map g = others at h
    induction h generalizing xs ys with
    | nil =>
      rw [List.map_eq_nil_iff.mp hxs]
      apply Matched.nil
    | take hgood _ ih =>
      obtain ⟨x, xs, rfl, rfl, hxs'⟩ := List.map_eq_cons_iff.mp hxs
      obtain ⟨y, ys, rfl, rfl, hys'⟩ := List.map_eq_cons_iff.mp hys
      exact .take hgood (ih hxs' hys')
    | skip _ ih =>
      obtain ⟨y, ys, rfl, rfl, hys'⟩ := List.map_eq_cons_iff.mp hys
      apply Matched.skip (ih hxs hys')
  · intro h
    induction h with
    | nil => apply Matched.nil
    | take hgood _ ih => apply Matched.take hgood ih
    | skip _ ih => apply Matched.skip ih

/-- Matching goes along with a relation of the elements that are chosen. -/
theorem of_forall₂ {γ : Type} {good' : α → γ → Prop} {rel : γ → β → Prop}
    (himp : ∀ x y z, rel z y → good x y → good' x z) {xs : List α} {ys : List β} {zs : List γ}
    (hall : List.Forall₂ rel zs ys) (h : Matched good xs ys) :
  Matched good' xs zs
  := by
  induction h generalizing zs with
  | nil => exact .nil
  | take hgood _ ih =>
    cases hall with
    | cons hrel hrest => exact .take (himp _ _ _ hrel hgood) (ih hrest)
  | skip _ ih =>
    cases hall with
    | cons hrel hrest => exact .skip (ih hrest)

/-- What is matched is good for one of the elements. -/
theorem exists_good {xs : List α} {ys : List β} (h : Matched good xs ys) {x : α} (hx : x ∈ xs) :
  ∃ y ∈ ys, good x y
  := by
  induction h with
  | nil => cases hx
  | take hgood _ ih =>
    rcases List.mem_cons.mp hx with rfl | hx
    · exact ⟨_, List.mem_cons_self, hgood⟩
    · obtain ⟨y, hy, hgood⟩ := ih hx
      exact ⟨y, List.mem_cons_of_mem _ hy, hgood⟩
  | skip _ ih =>
    obtain ⟨y, hy, hgood⟩ := ih hx
    exact ⟨y, List.mem_cons_of_mem _ hy, hgood⟩

/-- What is matched with a first element left can be matched without it. -/
theorem tail {x : α} {xs : List α} {ys : List β} (h : Matched good (x :: xs) ys) :
  Matched good xs ys
  := by
  generalize hxs : x :: xs = all at h
  induction h with
  | nil => cases hxs
  | take _ hrest _ =>
    cases hxs
    exact .skip hrest
  | skip _ ih => exact .skip (ih hxs)

/-- The first good element may always be the chosen one. -/
theorem of_good {x : α} {y : β} {xs : List α} {ys : List β} (h : Matched good (x :: xs) (y :: ys)) :
  Matched good xs ys
  := by
  cases h with
  | take _ hrest => apply hrest
  | skip hrest => apply hrest.tail

/-- What does not match the first element matches the others. -/
theorem of_not_good {x : α} {y : β} {xs : List α} {ys : List β} (hbad : ¬ good x y)
    (h : Matched good (x :: xs) (y :: ys)) :
  Matched good (x :: xs) ys
  := by
  cases h with
  | take hgood _ => apply absurd hgood hbad
  | skip hrest => apply hrest

/-- The chosen elements are a sublist. -/
theorem exists_sublist {xs : List α} {ys : List β} (h : Matched good xs ys) :
  ∃ zs, zs.Sublist ys ∧ List.Forall₂ good xs zs
  := by
  induction h with
  | @nil ys => exact ⟨[], List.nil_sublist ys, .nil⟩
  | @take x y xs ys hgood _ ih =>
    obtain ⟨zs, hsub, hall⟩ := ih
    exact ⟨y :: zs, hsub.cons_cons y, .cons hgood hall⟩
  | @skip y xs ys _ ih =>
    obtain ⟨zs, hsub, hall⟩ := ih
    exact ⟨zs, hsub.cons y, hall⟩

/-- What is good for the elements of a sublist, one for each, is matched. -/
theorem of_sublist {xs : List α} {ys zs : List β} (hsub : zs.Sublist ys)
    (hall : List.Forall₂ good xs zs) :
  Matched good xs ys
  := by
  induction hsub generalizing xs with
  | slnil =>
    cases hall
    apply Matched.nil
  | cons _ _ ih => apply Matched.skip (ih hall)
  | cons_cons _ _ ih =>
    cases hall with
    | cons hgood hrest => apply Matched.take hgood (ih hrest)

/-- There is an element for each that is matched. -/
theorem length_le {xs : List α} {ys : List β} (h : Matched good xs ys) :
  xs.length ≤ ys.length
  := by
  obtain ⟨zs, hsub, hall⟩ := h.exists_sublist
  rw [hall.length_eq]
  apply hsub.length_le

/-- A matching is a strictly increasing map into the places of the elements. -/
theorem exists_strictMono {xs : List α} {ys : List β} (h : Matched good xs ys) :
  ∃ f : Fin xs.length → Fin ys.length, StrictMono f ∧ ∀ i, good xs[i] ys[f i]
  := by
  obtain ⟨zs, hsub, hall⟩ := h.exists_sublist
  obtain ⟨f, hf⟩ := List.sublist_iff_exists_fin_orderEmbedding_get_eq.mp hsub
  have hlength : xs.length = zs.length := hall.length_eq
  use fun i => f (i.cast hlength)
  constructor
  · intro i j hij
    apply f.strictMono
    apply hij
  · intro i
    have hgood := (List.forall₂_iff_get.mp hall).2 i.val i.isLt (hlength ▸ i.isLt)
    have hi := hf (i.cast hlength)
    rw [List.get_eq_getElem, List.get_eq_getElem] at hgood hi
    apply hi ▸ hgood

/-- A strictly increasing map chooses a sublist. -/
theorem of_strictMono {xs : List α} {ys : List β} {f : Fin xs.length → Fin ys.length}
    (hf : StrictMono f) (hgood : ∀ i, good xs[i] ys[f i]) :
  Matched good xs ys
  := by
  have hlength : (List.ofFn fun i => ys[f i]).length = xs.length := List.length_ofFn
  have hsub : (List.ofFn fun i => ys[f i]).Sublist ys := by
    apply List.sublist_iff_exists_fin_orderEmbedding_get_eq.mpr
    use OrderEmbedding.ofStrictMono (fun i => f (i.cast hlength)) fun i j hij => hf hij
    intro i
    rw [List.get_ofFn]
    rfl
  apply of_sublist hsub
  apply List.forall₂_iff_get.mpr
  use hlength.symm
  intro i hxs hzs
  rw [List.get_ofFn]
  apply hgood ⟨i, hxs⟩

end Matched

end Bitcoin
