import Bitcoin.Proofs.Except
import Bitcoin.Proofs.Script.Nesting
import Bitcoin.Script.Basic

/-!
# The structure of scripts

A script has tokens when it has a program. The program of a byte string is the nested
program with the tokens that the byte string is taken apart into.
-/

namespace Bitcoin.Script

/-- The tokens of a script are those of its program. -/
theorem tokens_eq_ok_iff {script : Script} {ts : List Token} :
  script.tokens = .ok ts ↔ ∃ p, script.program = .ok p ∧ p.tokens = ts
  := map_eq_ok_iff

/-- Bytes have the program whose tokens they are decoded to, if it is not nested too deeply. -/
theorem program_encoded_eq_ok_iff {bytes : Bytes} {p : Program} :
  (encoded bytes).program = .ok p
    ↔ Token.decodeAll bytes = .ok p.tokens ∧ p.Nested Program.maximumDepth
  := by
  rw [program, bind_eq_ok_iff]
  constructor
  · rintro ⟨ts, hts, h⟩
    obtain ⟨hp, rfl⟩ := Program.ofTokens_eq_ok_iff.mp h
    exact ⟨hts, hp⟩
  · rintro ⟨hts, hp⟩
    exact ⟨p.tokens, hts, Program.ofTokens_tokens hp⟩

/-- Tokens are assembled to a script if they are those of a program that is not nested too
deeply. -/
theorem ofTokens_eq_ok_iff {ts : List Token} {script : Script} :
  ofTokens ts = .ok script
    ↔ ∃ p : Program, p.Nested Program.maximumDepth ∧ p.tokens = ts ∧ assembled p = script
  := by
  rw [ofTokens, map_eq_ok_iff]
  constructor
  · rintro ⟨p, hp, rfl⟩
    obtain ⟨hnested, htokens⟩ := Program.ofTokens_eq_ok_iff.mp hp
    exact ⟨p, hnested, htokens, rfl⟩
  · rintro ⟨p, hnested, htokens, rfl⟩
    exact ⟨p, Program.ofTokens_eq_ok_iff.mpr ⟨hnested, htokens⟩, rfl⟩

end Bitcoin.Script
