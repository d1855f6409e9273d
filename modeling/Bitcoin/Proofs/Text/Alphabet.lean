import Mathlib.Data.List.GetD
import Mathlib.Data.List.Nodup

/-!
# Alphabets

The symbols of an alphabet stand for their positions in it, so that a symbol has a value exactly if
it is the symbol of that value (`Text.findIdx?_eq_some_iff_of_nodup`).
-/

namespace Bitcoin.Text

/-- A symbol is found at its position, if no symbol occurs twice. -/
theorem findIdx?_eq_some_iff_of_nodup {alphabet : List Char} (h : alphabet.Nodup)
    {c other : Char} {n : Nat} :
  alphabet.findIdx? (· = c) = some n ↔ n < alphabet.length ∧ alphabet.getD n other = c
  := by
  rw [List.findIdx?_eq_some_iff_getElem]
  constructor
  · rintro ⟨hn, hc, _⟩
    rw [List.getD_eq_getElem _ _ hn]
    exact ⟨hn, of_decide_eq_true hc⟩
  · rintro ⟨hn, rfl⟩
    rw [List.getD_eq_getElem _ _ hn]
    refine ⟨hn, decide_eq_true rfl, fun j hj heq => ?_⟩
    have hindex := h.getElem_inj_iff.mp (of_decide_eq_true heq)
    omega

end Bitcoin.Text
