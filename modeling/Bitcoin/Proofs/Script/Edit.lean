import Bitcoin.Proofs.Script.Basic
import Bitcoin.Proofs.Script.Token
import Bitcoin.Script.Edit

/-!
# What editing leaves

An edited script is assembled from the edited tokens (`Script.insert_eq_ok_iff` and so on).
Tokens that neither begin nor end a conditional may be left out of a script that has a
structure: what is left has one too (`Program.Nested.exists_filter`). So all opcodes but these,
and the pushes of some data, can always be removed from such a script.
-/

namespace Bitcoin

/-- The bytes that are left are no more than there were. -/
theorem Token.length_encodeAll_filter_le (ts : List Token) (keep : Token → Bool) :
  (encodeAll (ts.filter keep)).length ≤ (encodeAll ts).length
  := by
  induction ts with
  | nil => apply Nat.le_refl _
  | cons t ts ih =>
    rw [List.filter_cons, encodeAll_cons, List.length_append]
    split
    · rw [encodeAll_cons, List.length_append]
      omega
    · omega

/-- Inserting a token is putting it between a front and a back. -/
theorem Token.take_append_cons_drop {ts : List Token} {index : Nat} (h : index ≤ ts.length)
    (token : Token) :
  ts.take index ++ token :: ts.drop index = ts.insertIdx index token
  := by
  induction index generalizing ts with
  | zero => rfl
  | succ index ih =>
    cases ts with
    | nil => cases h
    | cons t ts =>
      rw [List.take_succ_cons, List.drop_succ_cons, List.cons_append, List.insertIdx_succ_cons,
        ih (Nat.le_of_succ_le_succ h)]

/-- A program may lose tokens as long as its conditionals keep their ends. The two parts of a
conditional become one where the delimiter between them is lost. -/
theorem Program.Nested.exists_filter
    {room : Nat} {p : Program} (hp : p.Nested room) {keep : Token → Bool}
    (hkeep : ∀ o : Opcode, o.isBracket = true → keep (.op o) = true) :
  ∃ q : Program, q.Nested room ∧ q.tokens = p.tokens.filter keep
  := by
  have hendIf := hkeep .endIf rfl
  induction hp with
  | done => exact ⟨.done, .done, rfl⟩
  | @push _ push rest _ ih =>
    obtain ⟨q, hq, htokens⟩ := ih
    cases hpush : keep (.push push) with
    | false => exact ⟨q, hq, by rw [tokens, List.filter_cons, hpush, htokens]; rfl⟩
    | true =>
      use .push push q, .push hq
      rw [tokens, tokens, List.filter_cons, hpush, htokens]
      rfl
  | @op _ o rest ho _ ih =>
    obtain ⟨q, hq, htokens⟩ := ih
    cases hop : keep (.op o) with
    | false => exact ⟨q, hq, by rw [tokens, List.filter_cons, hop, htokens]; rfl⟩
    | true =>
      use .op o q, .op ho hq
      rw [tokens, tokens, List.filter_cons, hop, htokens]
      rfl
  | @branch _ c body rest _ _ ihBody ih =>
    obtain ⟨body', hbody, hbodyTokens⟩ := ihBody
    obtain ⟨q, hq, htokens⟩ := ih
    use .branch c body' q, .branch hbody hq
    rw [tokens, hbodyTokens, htokens]
    simp [tokens, hkeep, hendIf]
  | @branchElse _ c body alternative rest _ _ _ ihBody ihAlternative ih =>
    obtain ⟨body', hbody, hbodyTokens⟩ := ihBody
    obtain ⟨alternative', halternative, halternativeTokens⟩ := ihAlternative
    obtain ⟨q, hq, htokens⟩ := ih
    cases hotherwise : keep (.op .otherwise) with
    | true =>
      use .branchElse c body' alternative' q, .branchElse hbody halternative hq
      rw [tokens, hbodyTokens, halternativeTokens, htokens]
      simp [tokens, hkeep, hotherwise, hendIf]
    | false =>
      use .branch c (body'.append alternative') q, .branch (hbody.append halternative) hq
      rw [tokens, tokens_append, hbodyTokens, halternativeTokens, htokens]
      simp [tokens, hkeep, hotherwise, hendIf]

namespace Script

/-- Whether a script has a structure. An assembled script has the one that its tokens have,
as those do that are made from tokens. -/
def Structured (script : Script) : Prop :=
  ∃ p, script.program = .ok p ∧ p.Nested Program.maximumDepth

/-- A byte string has a structure if it has tokens at all. -/
theorem structured_encoded_iff {bytes : Bytes} :
  (encoded bytes).Structured ↔ ∃ ts, (encoded bytes).tokens = .ok ts
  := by
  constructor
  · rintro ⟨p, hp, _⟩
    exact ⟨p.tokens, tokens_eq_ok_iff.mpr ⟨p, hp, rfl⟩⟩
  · rintro ⟨ts, hts⟩
    obtain ⟨p, hp, rfl⟩ := tokens_eq_ok_iff.mp hts
    exact ⟨p, hp, (program_encoded_eq_ok_iff.mp hp).2⟩

theorem structured_ofTokens {ts : List Token} {script : Script} (h : ofTokens ts = .ok script) :
  script.Structured
  := by
  obtain ⟨p, hp, _, rfl⟩ := ofTokens_eq_ok_iff.mp h
  exact ⟨p, rfl, hp⟩

/-- The tokens of a script have its bytes. -/
theorem bytes_of_tokens {script : Script} {ts : List Token} (h : script.tokens = .ok ts) :
  script.bytes = Token.encodeAll ts
  := by
  obtain ⟨p, hp, rfl⟩ := tokens_eq_ok_iff.mp h
  cases script with
  | encoded bytes =>
    have hdecode := (program_encoded_eq_ok_iff.mp hp).1
    apply (Token.decodeAll_eq_ok_iff.mp hdecode).1.symm
  | assembled q =>
    cases hp
    apply p.encode_eq

/-- An assembled script has the tokens that it was assembled from. -/
theorem tokens_of_ofTokens {ts : List Token} {script : Script} (h : ofTokens ts = .ok script) :
  script.tokens = .ok ts
  := by
  obtain ⟨p, _, rfl, rfl⟩ := ofTokens_eq_ok_iff.mp h
  rfl

/-- A structured script has the tokens that it would be assembled from. -/
theorem Structured.exists_ofTokens {script : Script} (h : script.Structured) {ts : List Token}
    (hts : script.tokens = .ok ts) :
  ∃ assembled, ofTokens ts = .ok assembled
  := by
  obtain ⟨p, hp, hnested⟩ := h
  obtain ⟨q, hq, rfl⟩ := tokens_eq_ok_iff.mp hts
  obtain rfl : p = q := Except.ok.inj (hp.symm.trans hq)
  exact ⟨.assembled p, ofTokens_eq_ok_iff.mpr ⟨p, hnested, rfl, rfl⟩⟩

/-- The ends of the conditionals of a structured script, and some of its other tokens, are a
script. -/
theorem Structured.exists_ofTokens_filter
    {script : Script} (h : script.Structured) {keep : Token → Bool}
    (hkeep : ∀ o : Opcode, o.isBracket = true → keep (.op o) = true) :
  ∃ ts left, script.tokens = .ok ts ∧ ofTokens (ts.filter keep) = .ok left
  := by
  obtain ⟨p, hp, hnested⟩ := h
  obtain ⟨q, hq, htokens⟩ := hnested.exists_filter hkeep
  exact ⟨p.tokens, .assembled q, tokens_eq_ok_iff.mpr ⟨p, hp, rfl⟩,
    ofTokens_eq_ok_iff.mpr ⟨q, hq, htokens, rfl⟩⟩

/-- An opcode that is no delimiter can be removed. -/
theorem Structured.exists_removeOp
    {script : Script} (h : script.Structured) {op : Opcode} (hop : op.isDelimiter = false) :
  ∃ left, script.removeOp op = .ok left ∧ left.bytes.length ≤ script.bytes.length
  := by
  have hkeep : ∀ o : Opcode, o.isBracket = true →
      decide ((Token.op o).opcode? ≠ some op) = true := by
    intro o ho
    apply decide_eq_true
    rintro ⟨rfl⟩
    rw [Opcode.isDelimiter_of_isBracket ho] at hop
    cases hop
  obtain ⟨ts, left, hts, hleft⟩ :=
    @exists_ofTokens_filter script h (fun t => t.opcode? ≠ some op) hkeep
  use left
  rw [removeOp, bind_of_eq_ok hts, bytes_of_tokens hts, bytes_of_tokens (tokens_of_ofTokens hleft)]
  exact ⟨hleft, Token.length_encodeAll_filter_le _ _⟩

/-! ### Edited scripts -/

variable {script edited : Script} {index : Nat} {token : Token}

/-- A token may be inserted in front of each other one and behind all of them. -/
theorem insert_eq_ok_iff :
  script.insert index token = .ok edited
    ↔ ∃ ts, script.tokens = .ok ts ∧ index ≤ ts.length
      ∧ ofTokens (ts.insertIdx index token) = .ok edited
  := by
  rw [insert, bind_eq_ok_iff]
  constructor
  · rintro ⟨ts, hts, h⟩
    split at h
    · cases h
    · next hrange =>
      have hle := Nat.le_of_not_gt hrange
      exact ⟨ts, hts, hle, Token.take_append_cons_drop hle token ▸ h⟩
  · rintro ⟨ts, hts, hle, h⟩
    use ts, hts
    rw [if_neg (Nat.not_lt.mpr hle), Token.take_append_cons_drop hle, h]

/-- A token may be put behind all others. -/
theorem append_eq_ok_iff :
  script.append token = .ok edited
    ↔ ∃ ts, script.tokens = .ok ts ∧ ofTokens (ts ++ [token]) = .ok edited
  := bind_eq_ok_iff

/-- What it takes to change the tokens at an index, where there has to be one. -/
theorem change_eq_ok_iff {fault : Error} {change : List Token → List Token} :
  (do
      let ts ← script.tokens
      match ts[index]? with
      | none => .error fault
      | some found =>
        let changed ← ofTokens (change ts)
        .ok (changed, found)) = .ok (edited, token)
    ↔ ∃ ts, script.tokens = .ok ts ∧ ts[index]? = some token ∧ ofTokens (change ts) = .ok edited
  := by
  rw [bind_eq_ok_iff]
  constructor
  · rintro ⟨ts, hts, h⟩
    split at h
    · cases h
    · next hindex =>
      obtain ⟨left, hleft, h⟩ := bind_eq_ok_iff.mp h
      cases h
      exact ⟨ts, hts, hindex, hleft⟩
  · rintro ⟨ts, hts, hindex, h⟩
    use ts, hts
    rw [hindex]
    apply bind_of_eq_ok h

/-- The token that is deleted is given back. -/
theorem delete_eq_ok_iff :
  script.delete index = .ok (edited, token)
    ↔ ∃ ts, script.tokens = .ok ts ∧ ts[index]? = some token
      ∧ ofTokens (ts.eraseIdx index) = .ok edited
  := change_eq_ok_iff

/-- The token that is replaced is given back. -/
theorem set_eq_ok_iff {replaced : Token} :
  script.set index token = .ok (edited, replaced)
    ↔ ∃ ts, script.tokens = .ok ts ∧ ts[index]? = some replaced
      ∧ ofTokens (ts.set index token) = .ok edited
  := change_eq_ok_iff

end Script

end Bitcoin
