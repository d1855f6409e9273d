import Bitcoin.Proofs.Script.Coherence
import Bitcoin.Proofs.Script.Failure

/-!
# Removing tokens

A `Script.Removal` takes an opcode or the pushes of some data out of a script. What is left is
assembled from the other tokens. A script has as many beginnings of conditionals as it has ends
(`Program.Nested.count_brackets`), and so it is left without a structure exactly if one of these is
removed (`Script.Structured.exists_remove_iff`).

Removals one after the other leave the tokens that each of them keeps
(`Script.Structured.exists_removeAll`), in whatever order they are made. So the order in which
signatures and separators are removed from the script that is signed does not matter
(`Script.removals_commute`).
-/

namespace Bitcoin

/-! ### Beginnings and ends of conditionals -/

/-- Conditionals begin with one of two opcodes and end with a third one. -/
theorem Opcode.isBracket_eq_true_iff {o : Opcode} :
  o.isBracket = true ↔ o = .ifTrue ∨ o = .ifFalse ∨ o = .endIf
  := by
  cases o <;> simp [isBracket]

theorem Opcode.isBracket_eq_false {o : Opcode} (h : o.isDelimiter = false) :
  o.isBracket = false
  := by
  cases hbracket : o.isBracket with
  | false => rfl
  | true =>
    rw [isDelimiter_of_isBracket hbracket] at h
    cases h

/-- Each conditional has one beginning and one end. -/
theorem Program.Nested.count_brackets {room : Nat} {p : Program} (hp : p.Nested room) :
  p.tokens.count (.op .ifTrue) + p.tokens.count (.op .ifFalse) = p.tokens.count (.op .endIf)
  := by
  induction hp with
  | done => rfl
  | push _ ih => simpa [tokens, List.count_cons] using ih
  | @op _ o _ ho _ ih =>
    have hne : ∀ o' : Opcode, o'.isBracket = true → Token.op o ≠ .op o' := by
      rintro o' ho' ⟨⟩
      rw [Opcode.isBracket_eq_false ho] at ho'
      cases ho'
    rw [tokens, List.count_cons_of_ne (hne .ifTrue rfl), List.count_cons_of_ne (hne .ifFalse rfl),
      List.count_cons_of_ne (hne .endIf rfl), ih]
  | @branch _ c _ _ _ _ ihBody ih =>
    cases c <;> simp [tokens, Conditional.opcode, List.count_append] <;> omega
  | @branchElse _ c _ _ _ _ _ _ ihBody ihAlternative ih =>
    cases c <;> simp [tokens, Conditional.opcode, List.count_append] <;> omega

theorem Token.opcode?_eq_some_iff {t : Token} {o : Opcode} :
  t.opcode? = some o ↔ t = .op o
  := by
  cases t <;> simp [opcode?]

namespace Script

/-- What is removed from a script. -/
inductive Removal where
  /-- An opcode. -/
  | op (op : Opcode)
  /-- The pushes of some data, in whatever form. -/
  | push (data : Bytes)
deriving DecidableEq

namespace Removal

/-- Whether a token is left. -/
def keeps : Removal → Token → Bool
  | op o, t => t.opcode? ≠ some o
  | push data, t => t.data? ≠ some data

/-- Whether tokens lose the beginning or the end of a conditional. -/
def Unbalances (ts : List Token) (removal : Removal) : Prop :=
  ∃ o, removal = op o ∧ o.isBracket = true ∧ .op o ∈ ts

theorem keeps_op_iff {o : Opcode} {t : Token} :
  (op o).keeps t = true ↔ t ≠ .op o
  := by
  rw [keeps, decide_eq_true_iff, Ne, Token.opcode?_eq_some_iff]

theorem keeps_push_op (data : Bytes) (o : Opcode) :
  (push data).keeps (.op o) = true
  := rfl

/-- An opcode cannot be removed if it begins or ends conditionals and occurs. -/
theorem unbalances_op_iff {o : Opcode} {ts : List Token} :
  (op o).Unbalances ts ↔ o.isBracket = true ∧ .op o ∈ ts
  := by
  constructor
  · rintro ⟨_, ⟨⟩, hlost⟩
    exact hlost
  · exact fun hlost => ⟨o, rfl, hlost⟩

/-- Removing other tokens before is no reason why tokens lose the end of a conditional. -/
theorem Unbalances.of_filter {ts : List Token} {removal : Removal} {keep : Token → Bool}
    (h : removal.Unbalances (ts.filter keep)) :
  removal.Unbalances ts
  := by
  obtain ⟨o, rfl, ho, hmem⟩ := h
  exact ⟨o, rfl, ho, List.mem_of_mem_filter hmem⟩

end Removal

/-- The script that is left by a removal. -/
def remove (script : Script) : Removal → Except Error Script
  | .op o => script.removeOp o
  | .push data => script.removePush data

/-- The script that is left by removals one after the other. -/
def removeAll (script : Script) (removals : List Removal) : Except Error Script :=
  removals.foldlM remove script

variable {script left : Script} {ts : List Token} {removal : Removal}

/-- What a removal keeps is assembled again. -/
theorem remove_eq (hts : script.tokens = .ok ts) (removal : Removal) :
  script.remove removal = ofTokens (ts.filter removal.keeps)
  := by
  cases removal <;> apply bind_of_eq_ok hts

/-- A removal leaves the tokens that it keeps. -/
theorem tokens_of_remove (hts : script.tokens = .ok ts) (h : script.remove removal = .ok left) :
  left.tokens = .ok (ts.filter removal.keeps)
  := by
  rw [remove_eq hts] at h
  apply tokens_of_ofTokens h

/-- Nothing is left of a script if a beginning or an end of its conditionals is removed. -/
theorem Structured.not_unbalances (h : script.Structured) (hts : script.tokens = .ok ts)
    (hleft : script.remove removal = .ok left) :
  ¬ removal.Unbalances ts
  := by
  rintro ⟨o, rfl, ho, hmem⟩
  obtain ⟨p, hp, hnested⟩ := h
  obtain ⟨_, hp', rfl⟩ := tokens_eq_ok_iff.mp hts
  obtain rfl := Except.ok.inj (hp.symm.trans hp')
  rw [remove_eq hts] at hleft
  obtain ⟨q, hqNested, hqTokens, _⟩ := ofTokens_eq_ok_iff.mp hleft
  have hpos : 0 < p.tokens.count (.op o) := List.count_pos_iff.mpr hmem
  have hnone : q.tokens.count (.op o) = 0 := by
    rw [hqTokens, List.count_eq_zero]
    exact fun hkept => Removal.keeps_op_iff.mp (List.mem_filter.mp hkept).2 rfl
  have hsame : ∀ o', Token.op o' ≠ .op o → q.tokens.count (.op o') = p.tokens.count (.op o') := by
    intro o' hne
    rw [hqTokens, List.count_filter (Removal.keeps_op_iff.mpr hne)]
  have hbefore := hnested.count_brackets
  have hafter := hqNested.count_brackets
  rcases Opcode.isBracket_eq_true_iff.mp ho with rfl | rfl | rfl
  · rw [hnone, hsame .ifFalse (by decide), hsame .endIf (by decide)] at hafter
    omega
  · rw [hnone, hsame .ifTrue (by decide), hsame .endIf (by decide)] at hafter
    omega
  · rw [hnone, hsame .ifTrue (by decide), hsame .ifFalse (by decide)] at hafter
    omega

/-- Everything but the beginnings and the ends of conditionals can be removed. -/
theorem Structured.exists_remove (h : script.Structured) (hts : script.tokens = .ok ts)
    (hbalanced : ¬ removal.Unbalances ts) :
  ∃ left, script.remove removal = .ok left
  := by
  have hfilter : (∀ o : Opcode, o.isBracket = true → removal.keeps (.op o) = true) →
      ∃ left, ofTokens (ts.filter removal.keeps) = .ok left := by
    intro hkeep
    obtain ⟨ts', left, hts', hleft⟩ := h.exists_ofTokens_filter hkeep
    obtain rfl := Except.ok.inj (hts.symm.trans hts')
    exact ⟨left, hleft⟩
  rw [remove_eq hts]
  cases removal with
  | push data => exact hfilter fun o _ => Removal.keeps_push_op data o
  | op o =>
    by_cases hmem : .op o ∈ ts
    · apply hfilter
      intro o' ho'
      apply Removal.keeps_op_iff.mpr
      rintro ⟨⟩
      exact hbalanced ⟨o, rfl, ho', hmem⟩
    · have hall : ts.filter (Removal.op o).keeps = ts := by
        apply List.filter_eq_self.mpr
        intro t ht
        apply Removal.keeps_op_iff.mpr
        rintro rfl
        exact hmem ht
      rw [hall]
      apply h.exists_ofTokens hts

/-- A removal from a script whose structure is known fails exactly if it unbalances the
conditionals. -/
theorem Structured.exists_remove_iff (h : script.Structured) (hts : script.tokens = .ok ts)
    (removal : Removal) :
  (∃ left, script.remove removal = .ok left) ↔ ¬ removal.Unbalances ts
  := by
  constructor
  · rintro ⟨left, hleft⟩
    apply h.not_unbalances hts hleft
  · exact h.exists_remove hts

theorem structured_of_remove (hts : script.tokens = .ok ts) (h : script.remove removal = .ok left) :
  left.Structured
  := by
  rw [remove_eq hts] at h
  apply structured_ofTokens h

/-- A removal that is made again removes nothing. -/
theorem remove_of_remove (hts : script.tokens = .ok ts) (h : script.remove removal = .ok left) :
  left.remove removal = .ok left
  := by
  have hsame : ts.filter removal.keeps = (ts.filter removal.keeps).filter removal.keeps := by
    rw [List.filter_filter]
    simp only [Bool.and_self]
  rw [remove_eq (tokens_of_remove hts h), ← hsame, ← remove_eq hts, h]

/-- Two removals leave the same script in either order. -/
theorem Structured.exists_remove_remove (h : script.Structured) (hts : script.tokens = .ok ts)
    {removal' : Removal} {left' : Script} (hleft : script.remove removal = .ok left)
    (hleft' : script.remove removal' = .ok left') :
  ∃ both, left.remove removal' = .ok both ∧ left'.remove removal = .ok both
  := by
  have htokens := tokens_of_remove hts hleft
  have hbalanced : ¬ removal'.Unbalances (ts.filter removal.keeps) :=
    fun hlost => h.not_unbalances hts hleft' hlost.of_filter
  obtain ⟨both, hboth⟩ := (structured_of_remove hts hleft).exists_remove htokens hbalanced
  use both, hboth
  rw [remove_eq (tokens_of_remove hts hleft'), List.filter_comm, ← remove_eq htokens, hboth]

/-! ### Removals one after the other -/

theorem removeAll_singleton (script : Script) (removal : Removal) :
  script.removeAll [removal] = script.remove removal
  := by
  rw [removeAll, List.foldlM_cons]
  apply bind_pure

/-- Removals one after the other leave the tokens that each of them keeps. -/
theorem Structured.exists_removeAll (h : script.Structured) (hts : script.tokens = .ok ts)
    (removal : Removal) (removals : List Removal)
    (hbalanced : ∀ r ∈ removal :: removals, ¬ r.Unbalances ts) :
  ∃ left, script.removeAll (removal :: removals) = .ok left
    ∧ ofTokens (ts.filter fun t => (removal :: removals).all (·.keeps t)) = .ok left
  := by
  induction removals generalizing script ts removal with
  | nil =>
    obtain ⟨left, hleft⟩ := h.exists_remove hts (hbalanced removal List.mem_cons_self)
    use left, removeAll_singleton script removal ▸ hleft
    rw [← hleft, remove_eq hts]
    simp only [List.all_cons, List.all_nil, Bool.and_true]
  | cons next removals ih =>
    obtain ⟨hfirst, hrest⟩ := List.forall_mem_cons.mp hbalanced
    obtain ⟨middle, hmiddle⟩ := h.exists_remove hts hfirst
    have hrest' : ∀ r ∈ next :: removals, ¬ r.Unbalances (ts.filter removal.keeps) :=
      fun r hr hr' => hrest r hr hr'.of_filter
    obtain ⟨left, hleft, htokens⟩ := ih (structured_of_remove hts hmiddle)
      (tokens_of_remove hts hmiddle) next hrest'
    use left
    rw [removeAll, List.foldlM_cons, bind_of_eq_ok hmiddle]
    refine ⟨hleft, ?_⟩
    rw [← htokens, List.filter_filter]
    simp [Bool.and_comm]

/-- The order of removals does not matter. -/
theorem Structured.removeAll_perm (h : script.Structured) (hts : script.tokens = .ok ts)
    {removals removals' : List Removal} (hbalanced : ∀ r ∈ removals, ¬ r.Unbalances ts)
    (hperm : removals'.Perm removals) (hleft : script.removeAll removals = .ok left) :
  script.removeAll removals' = .ok left
  := by
  cases removals with
  | nil => rwa [hperm.eq_nil]
  | cons removal removals =>
    cases removals' with
    | nil => cases hperm.symm.eq_nil
    | cons removal' removals' =>
      obtain ⟨left₁, h₁, htokens₁⟩ := h.exists_removeAll hts removal removals hbalanced
      obtain ⟨left₂, h₂, htokens₂⟩ := h.exists_removeAll hts removal' removals'
        fun r hr => hbalanced r (hperm.mem_iff.mp hr)
      have hkeeps : ∀ t, (removal' :: removals').all (·.keeps t)
          = (removal :: removals).all (·.keeps t) := fun t => hperm.all_eq
      simp only [hkeeps] at htokens₂
      obtain rfl := Except.ok.inj (htokens₁.symm.trans htokens₂)
      rw [h₂, ← h₁, hleft]

/-- Removing several data is making a removal for each. -/
theorem removePushes_eq (script : Script) (datas : List Bytes) :
  script.removePushes datas = script.removeAll (datas.map .push)
  := by
  induction datas generalizing script with
  | nil => rfl
  | cons data datas ih =>
    rw [removePushes, List.map_cons, removeAll, List.foldlM_cons]
    simp only [ih]
    rfl

end Script

/-! ### The script that is signed -/

/-- Only what separators leave of a script is signed. -/
theorem Transaction.digest_eq_of_removeOp_eq {tx : Transaction} {index : Nat} {hashType : HashType}
    {s s' : Script} (h : s.removeOp .codeSeparator = s'.removeOp .codeSeparator) :
  tx.digest index hashType s = tx.digest index hashType s'
  := by
  rw [digest, digest, h]

/-- A check of a signature sees of a script what is left without separators. -/
theorem Spending.checkSignature_eq_of_removeOp_eq (spending : Spending) {s s' : Script}
    (h : s.removeOp .codeSeparator = s'.removeOp .codeSeparator) :
  spending.checkSignature s = spending.checkSignature s'
  := by
  funext signature key
  rw [checkSignature, checkSignature]
  simp only [Transaction.digest_eq_of_removeOp_eq h]

theorem Spending.countMatches_eq_of_removeOp_eq (spending : Spending) {s s' : Script}
    (h : s.removeOp .codeSeparator = s'.removeOp .codeSeparator) :
  spending.countMatches s = spending.countMatches s'
  := by
  funext signatures keys
  induction keys generalizing signatures with
  | nil => cases signatures <;> rfl
  | cons key keys ih =>
    cases signatures with
    | nil => rfl
    | cons signature signatures =>
      rw [countMatches, countMatches, spending.checkSignature_eq_of_removeOp_eq h]
      simp only [ih]

namespace Script

/-- Signatures and separators are neither beginnings nor ends of conditionals. -/
theorem not_unbalances_of_mem (datas : List Bytes) (ts : List Token) :
  ∀ removal ∈ .op .codeSeparator :: datas.map .push, ¬ Removal.Unbalances ts removal
  := by
  rintro removal hremoval ⟨o, rfl, ho, _⟩
  rcases List.mem_cons.mp hremoval with h | h
  · cases h
    cases ho
  · obtain ⟨_, _, ⟨⟩⟩ := List.mem_map.mp h

/-- The separators and the pushes of some data can be removed in any order. -/
theorem Structured.exists_hashed {script : Script} (h : script.Structured) {ts : List Token}
    (hts : script.tokens = .ok ts) (datas : List Bytes) :
  ∃ hashed, ∀ removals, removals.Perm (.op .codeSeparator :: datas.map .push) →
    script.removeAll removals = .ok hashed
  := by
  have hbalanced := not_unbalances_of_mem datas ts
  obtain ⟨hashed, hhashed, _⟩ := h.exists_removeAll hts _ _ hbalanced
  exact ⟨hashed, fun _ hperm => h.removeAll_perm hts hbalanced hperm hhashed⟩

/-- A check of signatures removes the signatures first, and the separators for each digest. -/
theorem exists_stripped {script hashed : Script} {datas : List Bytes}
    (h : script.removeAll (datas.map .push ++ [.op .codeSeparator]) = .ok hashed) :
  ∃ stripped, script.removePushes datas = .ok stripped
    ∧ stripped.removeOp .codeSeparator = .ok hashed
    ∧ stripped.removeOp .codeSeparator = hashed.removeOp .codeSeparator
  := by
  rw [removeAll, List.foldlM_append] at h
  obtain ⟨stripped, hstripped, hhashed⟩ := bind_eq_ok_iff.mp h
  have hhashed : stripped.remove (.op .codeSeparator) = .ok hashed := by
    rw [← removeAll_singleton]
    apply hhashed
  obtain ⟨ts, hts, _⟩ := bind_eq_ok_iff.mp hhashed
  use stripped
  rw [removePushes_eq]
  exact ⟨hstripped, hhashed, hhashed.trans (remove_of_remove hts hhashed).symm⟩

/-- From a script that has a structure the pushes of some data can always be removed, and an opcode
unless it begins or ends a conditional. Removals can be repeated, and made in another order. So a
check of signatures hashes the same script in whatever order the signatures and the separators are
removed from it. -/
theorem removals_commute {given : Token → Prop} {script : Script} (hbuilt : script.BuiltFrom given)
    {ts : List Token} (hts : script.tokens = .ok ts) :
  (∀ data, ∃ left, script.removePush data = .ok left
      ∧ left.tokens = .ok (ts.filter fun t => t.data? ≠ some data))
    ∧ (∀ op,
      (∀ left, script.removeOp op = .ok left → left.tokens = .ok (ts.filter fun t => t ≠ .op op))
      ∧ ((∃ e, script.removeOp op = .error e)
        ↔ (op = .ifTrue ∨ op = .ifFalse ∨ op = .endIf) ∧ .op op ∈ ts)
      ∧ ∀ e, script.removeOp op = .error e → ∃ fault, e = .parsing fault)
    ∧ (∀ removal left, script.remove removal = .ok left → left.remove removal = .ok left)
    ∧ (∀ removal removal' left left', script.remove removal = .ok left →
      script.remove removal' = .ok left' →
      ∃ both, left.remove removal' = .ok both ∧ left'.remove removal = .ok both)
    ∧ ∀ signatures : List Bytes, ∃ hashed,
      (∀ removals, removals.Perm (.op .codeSeparator :: signatures.map .push) →
        script.removeAll removals = .ok hashed)
      ∧ ∀ signatures', signatures'.Perm signatures → ∃ stripped,
        script.removePushes signatures' = .ok stripped
        ∧ stripped.removeOp .codeSeparator = .ok hashed
        ∧ ∀ spending : Spending, spending.checkSignature stripped = spending.checkSignature hashed
          ∧ spending.countMatches stripped = spending.countMatches hashed
  := by
  have h := hbuilt.structured hts
  refine ⟨fun data => ?_, fun op => ⟨?_, ?_, ?_⟩, fun _ _ => remove_of_remove hts,
    fun _ _ _ _ => h.exists_remove_remove hts, fun signatures => ?_⟩
  · have hbalanced : ¬ Removal.Unbalances ts (.push data) := by
      rintro ⟨_, ⟨⟩, _⟩
    obtain ⟨left, hleft⟩ := h.exists_remove hts hbalanced
    exact ⟨left, hleft, tokens_of_remove hts hleft⟩
  · intro left hleft
    have htokens : left.tokens = .ok (ts.filter (Removal.op op).keeps) :=
      tokens_of_remove hts hleft
    have hkeeps : (Removal.op op).keeps = fun t => decide (t ≠ .op op) := by
      funext t
      rw [Bool.eq_iff_iff, Removal.keeps_op_iff, decide_eq_true_iff]
    rw [htokens, hkeeps]
  · have hremove : (∃ left, script.removeOp op = .ok left) ↔ ¬ (Removal.op op).Unbalances ts :=
      h.exists_remove_iff hts (.op op)
    rw [exists_eq_error_iff, hremove, not_not, Removal.unbalances_op_iff,
      Opcode.isBracket_eq_true_iff]
  · intro e he
    have he : script.remove (.op op) = .error e := he
    rw [remove_eq hts] at he
    apply parsing_of_ofTokens he
  · obtain ⟨hashed, hhashed⟩ := h.exists_hashed hts signatures
    refine ⟨hashed, hhashed, fun signatures' hperm => ?_⟩
    have hlast : (signatures'.map Removal.push ++ [Removal.op .codeSeparator]).Perm
        (.op .codeSeparator :: signatures.map .push) :=
      (List.perm_append_singleton _ _).trans ((hperm.map _).cons _)
    obtain ⟨stripped, hstripped, hremoved, hsame⟩ := exists_stripped (hhashed _ hlast)
    exact ⟨stripped, hstripped, hremoved, fun spending =>
      ⟨spending.checkSignature_eq_of_removeOp_eq hsame,
        spending.countMatches_eq_of_removeOp_eq hsame⟩⟩

/-- A signature is pushed in both parts of a conditional, in two forms, and another one nowhere. -/
theorem removals_commute_branches :
  let script := encoded [0x51, 0x63, 0x01, 0x05, 0x67, 0xab, 0x4c, 0x01, 0x05, 0x68, 0xab]
  let ts : List Token := [.op .one, .op .ifTrue, .push ⟨.inline, [0x05]⟩, .op .otherwise,
    .op .codeSeparator, .push ⟨.data1, [0x05]⟩, .op .endIf, .op .codeSeparator]
  script.tokens = .ok ts
    ∧ (∃ left, script.removePush [0x05] = .ok left
      ∧ left.tokens = .ok [.op .one, .op .ifTrue, .op .otherwise, .op .codeSeparator, .op .endIf,
        .op .codeSeparator])
    ∧ (∃ fault, script.removeOp .endIf = .error (.parsing fault))
    ∧ ∃ stripped hashed, script.removePushes [[0x06], [0x05]] = .ok stripped
      ∧ script.removeAll [.push [0x05], .op .codeSeparator, .push [0x06]] = .ok hashed
      ∧ ∀ spending : Spending, spending.checkSignature stripped = spending.checkSignature hashed
  := by
  intro script ts
  have hts : script.tokens = .ok ts := eq_ok_of_toOption (by decide +kernel)
  have hbuilt : script.BuiltFrom fun _ => True := .encoded _
  obtain ⟨hpush, hop, _, _, hsigned⟩ := removals_commute hbuilt hts
  obtain ⟨_, hfails, hparsing⟩ := hop .endIf
  obtain ⟨e, he⟩ := hfails.mpr (by decide)
  obtain ⟨fault, rfl⟩ := hparsing e he
  obtain ⟨hashed, hhashed, hstripped⟩ := hsigned [[0x05], [0x06]]
  obtain ⟨stripped, h, _, hsame⟩ := hstripped [[0x06], [0x05]] (by decide)
  exact ⟨hts, hpush [0x05], ⟨fault, he⟩, stripped, hashed, h, hhashed _ (by decide),
    fun spending => (hsame spending).1⟩

end Script

end Bitcoin
