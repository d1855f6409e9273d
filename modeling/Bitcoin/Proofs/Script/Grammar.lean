import Bitcoin.Proofs.Script.Token
import Bitcoin.Proofs.Script.Basic

/-!
# The grammar of scripts

A script is a sequence of elements, and an element is a push, an opcode that is no delimiter, or a
conditional that encloses one or two scripts (`Grammar.IsElement`, `Grammar.IsScript`). The token
sequences of this grammar are those of nested programs (`Grammar.isScript_iff`); so these are
exactly the sequences that have a program, and the program keeps their tokens and their bytes
(`Program.ofTokens_grammar`).
-/

namespace Bitcoin

namespace Grammar

mutual

/-- The tokens of an element whose conditionals are nested at most `room` deep. -/
inductive IsElement : Nat → List Token → Prop where
  /-- A push. -/
  | push {room : Nat} (p : Push) : IsElement room [.push p]
  /-- An opcode that is no delimiter. -/
  | op {room : Nat} {o : Opcode} : o.isDelimiter = false → IsElement room [.op o]
  /-- A conditional with one part. -/
  | branch {room : Nat} (c : Conditional) {body : List Token} :
      IsScript room body → IsElement (room + 1) (.op c.opcode :: (body ++ [.op .endIf]))
  /-- A conditional with two parts. -/
  | branchElse {room : Nat} (c : Conditional) {body alternative : List Token} :
      IsScript room body → IsScript room alternative →
        IsElement (room + 1)
          (.op c.opcode :: (body ++ .op .otherwise :: (alternative ++ [.op .endIf])))

/-- The tokens of a script whose conditionals are nested at most `room` deep. -/
inductive IsScript : Nat → List Token → Prop where
  /-- No element is left. -/
  | nil {room : Nat} : IsScript room []
  /-- An element, and the rest of the script. -/
  | cons {room : Nat} {element rest : List Token} :
      IsElement room element → IsScript room rest → IsScript room (element ++ rest)

end

/-- The tokens of a nested program are a script. -/
theorem isScript_of_nested {room : Nat} {p : Program} (hp : p.Nested room) :
  IsScript room p.tokens
  := by
  induction hp with
  | done => apply IsScript.nil
  | push _ ih => apply IsScript.cons (.push _) ih
  | op ho _ ih => apply IsScript.cons (.op ho) ih
  | @branch _ c _ _ _ _ ihBody ih =>
    have h := IsScript.cons (.branch c ihBody) ih
    simpa only [Program.tokens, List.cons_append, List.append_assoc, List.nil_append] using h
  | @branchElse _ c _ _ _ _ _ _ ihBody ihAlternative ih =>
    have h := IsScript.cons (.branchElse c ihBody ihAlternative) ih
    simpa only [Program.tokens, List.cons_append, List.append_assoc, List.nil_append] using h

mutual

/-- An element in front of a nested program makes a nested program. -/
theorem IsElement.exists_nested {room : Nat} {element : List Token} {rest : Program}
    (hrest : rest.Nested room) :
  IsElement room element → ∃ p : Program, p.Nested room ∧ p.tokens = element ++ rest.tokens
  | .push p => ⟨.push p rest, .push hrest, rfl⟩
  | .op ho => ⟨.op _ rest, .op ho hrest, rfl⟩
  | .branch c hbody => by
      obtain ⟨body, hnested, rfl⟩ := hbody.exists_nested
      refine ⟨.branch c body rest, .branch hnested hrest, ?_⟩
      simp [Program.tokens]
  | .branchElse c hbody halternative => by
      obtain ⟨body, hnested, rfl⟩ := hbody.exists_nested
      obtain ⟨alternative, hnested', rfl⟩ := halternative.exists_nested
      refine ⟨.branchElse c body alternative rest, .branchElse hnested hnested' hrest, ?_⟩
      simp [Program.tokens]

/-- A script is the tokens of a nested program. -/
theorem IsScript.exists_nested {room : Nat} {ts : List Token} :
  IsScript room ts → ∃ p : Program, p.Nested room ∧ p.tokens = ts
  | .nil => ⟨.done, .done, rfl⟩
  | .cons helement hrest => by
      obtain ⟨rest, hnested, rfl⟩ := hrest.exists_nested
      apply helement.exists_nested hnested

end

/-- The scripts of the grammar are the token sequences of nested programs. -/
theorem isScript_iff {room : Nat} {ts : List Token} :
  IsScript room ts ↔ ∃ p : Program, p.Nested room ∧ p.tokens = ts
  := by
  constructor
  · apply IsScript.exists_nested
  · rintro ⟨p, hp, rfl⟩
    apply isScript_of_nested hp

end Grammar

/-- A token sequence has a program exactly if it is a script of the grammar, with conditionals at
most `Program.maximumDepth` deep; the program has the tokens of the sequence, and its bytes are
those of the tokens in order. -/
theorem Program.ofTokens_grammar (ts : List Token) :
  ((∃ p, ofTokens ts = .ok p) ↔ Grammar.IsScript maximumDepth ts)
    ∧ ∀ p, ofTokens ts = .ok p → p.tokens = ts ∧ p.encode = Token.encodeAll ts
  := by
  simp only [Grammar.isScript_iff, ofTokens_eq_ok_iff, true_and]
  rintro p ⟨_, rfl⟩
  exact ⟨rfl, p.encode_eq⟩

/-- A conditional with two parts in one that has a single part. -/
theorem Program.ofTokens_grammar_nested :
  let ts : List Token := [.op .ifTrue, .op .ifFalse, .op .otherwise, .op .endIf, .op .endIf]
  let p : Program := .branch .ifTrue (.branchElse .ifFalse .done .done .done) .done
  ofTokens ts = .ok p ∧ Grammar.IsScript maximumDepth ts ∧ p.tokens = ts
    ∧ p.encode = Token.encodeAll ts ∧ p.encode = [0x63, 0x64, 0x67, 0x68, 0x68]
  := by
  intro ts p
  have hp : ofTokens ts = .ok p := rfl
  obtain ⟨hscript, hall⟩ := ofTokens_grammar ts
  obtain ⟨htokens, hbytes⟩ := hall p hp
  exact ⟨hp, hscript.mp ⟨p, hp⟩, htokens, hbytes, hbytes⟩

end Bitcoin
