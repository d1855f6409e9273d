import Bitcoin.Proofs.Script.Grammar
import Bitcoin.Proofs.Script.Mnemonic
import Bitcoin.Proofs.Script.Supply
import Bitcoin.Proofs.Text.HexDigit

/-!
# The spellings of tokens

A token is spelt as a mnemonic, as data, or as an opcode that introduces data with the length and
the data behind it (`Token.Spelling`). The words of a text give tokens exactly if they can be split
into spellings of these (`Token.ofWords_eq_ok_iff`), and there is at most one way to do so
(`Token.spellings_unique`): the first word of a spelling tells how many words belong to it. So a
text describes a script exactly if its words spell the tokens of one (`Script.parse_grammar`).
-/

namespace Bitcoin

open Numeral

/-! ### Forms of pushes -/

theorem PushKind.ofOpcode?_eq_none_iff {o : Opcode} :
  ofOpcode? o = none ↔ o.isPushData = false
  := by
  cases o <;> simp [ofOpcode?, Opcode.isPushData]

theorem PushKind.isPushData_of_opcode? {kind : PushKind} {o : Opcode} (h : kind.opcode? = some o) :
  o.isPushData = true
  := by
  cases kind <;> cases h <;> rfl

/-- Whether a form is the shortest that can write a length. The longest form is this also for the
lengths that no form can write. -/
def PushKind.IsShortest (kind : PushKind) (length : Nat) : Prop :=
  (length ≤ kind.capacity ∨ kind = .data4)
    ∧ ∀ kind' : PushKind, length ≤ kind'.capacity → kind.capacity ≤ kind'.capacity

/-- The kind that is shortest for a length is the smallest one that has room for it. -/
theorem PushKind.isShortest_iff {kind : PushKind} {length : Nat} :
  kind.IsShortest length ↔ kind = smallest length
  := by
  constructor
  · rintro ⟨hfits, hleast⟩
    have hinline := hleast .inline
    have hdata1 := hleast .data1
    have hdata2 := hleast .data2
    rw [smallest]
    cases kind <;> simp only [capacity, reduceCtorEq, or_false] at hfits hinline hdata1 hdata2 <;>
      split_ifs <;> first | rfl | omega
  · rintro rfl
    constructor
    · by_cases hlongest : smallest length = .data4
      · exact .inr hlongest
      · exact .inl (le_capacity_smallest hlongest)
    · intro kind' hfits
      rw [smallest]
      cases kind' <;> rw [capacity] at hfits <;> split_ifs <;> simp only [capacity] <;> omega

/-! ### Spellings -/

namespace Token

/-- The word that stands for digits. -/
def hexWord (digits : List Char) : List Char :=
  '0' :: 'x' :: digits

/-- The words that spell a token. -/
inductive Spelling : List (List Char) → Token → Prop where
  /-- A mnemonic of an opcode that introduces no data. -/
  | mnemonic {word : List Char} {o : Opcode} :
      String.ofList word ∈ o.mnemonics → o.isPushData = false → Spelling [word] (.op o)
  /-- Data that is not empty, which is pushed in the shortest form. -/
  | data {digits : List Char} {data : Bytes} {kind : PushKind} :
      Hex.Denotes digits data → data ≠ [] → kind.IsShortest data.length →
        Spelling [hexWord digits] (.push ⟨kind, data⟩)
  /-- An opcode that introduces data, and the length of the data and the data. -/
  | push {o : Opcode} {kind : PushKind} {length digits : List Char} {data : Bytes} :
      kind.opcode? = some o → IsHexNumeral length data.length → Hex.Denotes digits data →
        data.length ≤ kind.capacity →
        Spelling [o.name.toList, hexWord length, hexWord digits] (.push ⟨kind, data⟩)

/-! ### Reading words -/

theorem isSome_afterHexMark?_hexWord (digits : List Char) :
  (afterHexMark? (hexWord digits)).isSome = true
  := rfl

/-- A hexadecimal word is one that begins with the mark. -/
theorem afterHexMark?_eq_some_iff {word digits : List Char} :
  afterHexMark? word = some digits ↔ word = hexWord digits
  := by
  rw [hexWord]
  constructor
  · intro h
    unfold afterHexMark? at h
    split at h
    · cases h
      rfl
    · cases h
  · rintro rfl
    rfl

/-- Data are read from a hexadecimal word with an even number of digits. -/
theorem ofHexWord_eq_ok_iff {word : List Char} {data : Bytes} :
  ofHexWord word = .ok data ↔ ∃ digits, word = hexWord digits ∧ Hex.Denotes digits data
  := by
  simp only [← afterHexMark?_eq_some_iff, ← Hex.decodeChars_eq_ok_iff]
  rw [ofHexWord]
  cases afterHexMark? word with
  | none => simp
  | some digits => cases h : Hex.decodeChars digits <;> simp [h, Except.mapError]

/-- A length is read from a hexadecimal word if a machine word has room for it. -/
theorem ofLengthWord_eq_ok_iff {o : Opcode} {word : List Char} {length : Nat} :
  ofLengthWord o word = .ok length
    ↔ ∃ digits, word = hexWord digits ∧ IsHexNumeral digits length ∧ length < UInt64.size
  := by
  simp only [← afterHexMark?_eq_some_iff, ← parse?_sixteen_eq_some_iff]
  rw [ofLengthWord]
  cases afterHexMark? word with
  | none => simp
  | some digits => cases h : parse? 16 UInt64.size digits <;> simp [h]

theorem ofMnemonic_eq_ok_iff {word : String} {o : Opcode} :
  ofMnemonic word = .ok o ↔ word ∈ o.mnemonics
  := by
  rw [← Opcode.ofName?_eq_some_iff, ofMnemonic]
  cases Opcode.ofName? word <;> simp

/-- A push is read from its data, whose length must be the one that is written in front of them.
-/
theorem ofPushWords_eq_ok_iff {o o' : Opcode} {kind : PushKind} {length : Nat} {word : List Char}
    {t : Token} (hkind : kind.opcode? = some o') :
  ofPushWords o kind length word = .ok t
    ↔ ∃ data, ofHexWord word = .ok data ∧ data.length = length ∧ data.length ≤ kind.capacity
      ∧ .push ⟨kind, data⟩ = t
  := by
  have hne : kind ≠ .inline := by
    rintro rfl
    cases hkind
  rw [ofPushWords, bind_eq_ok_iff]
  apply exists_congr
  intro data
  apply and_congr_right
  intro _
  rw [Push.ofKind]
  by_cases hlength : data.length = length
  · subst hlength
    by_cases hcapacity : data.length ≤ kind.capacity
    · rw [if_neg (not_not.mpr rfl), if_neg (by simp [hne, hcapacity])]
      simp [hcapacity, bind_eq_ok_iff]
    · rw [if_neg (not_not.mpr rfl), if_pos (.inl (Nat.lt_of_not_le hcapacity))]
      simp [hcapacity, bind_eq_ok_iff]
  · simp [hlength]

/-- A mnemonic does not begin like data. -/
theorem not_isSome_afterHexMark?_of_mem_mnemonics {word : List Char} {o : Opcode}
    (h : String.ofList word ∈ o.mnemonics) :
  ¬ (afterHexMark? word).isSome = true
  := by
  obtain ⟨rest, hrest⟩ := Opcode.exists_toList_of_mem_mnemonics h
  rw [String.toList_ofList] at hrest
  rw [hrest]
  exact Bool.false_ne_true

variable {item rest : List (List Char)} {t : Token} {ts : List Token}

/-- The token of a spelling is read. -/
theorem ofWords_spelling (h : Spelling item t) (hrest : ofWords rest = .ok ts) :
  ofWords (item ++ rest) = .ok (t :: ts)
  := by
  cases h with
  | mnemonic hword ho =>
    rw [List.singleton_append, ofWords, if_neg (not_isSome_afterHexMark?_of_mem_mnemonics hword),
      bind_of_eq_ok (ofMnemonic_eq_ok_iff.mpr hword), PushKind.ofOpcode?_eq_none_iff.mpr ho]
    dsimp only
    rw [bind_of_eq_ok hrest]
  | data hdata hne hkind =>
    obtain rfl := PushKind.isShortest_iff.mp hkind
    rw [List.singleton_append, ofWords, if_pos (isSome_afterHexMark?_hexWord _),
      bind_of_eq_ok (ofHexWord_eq_ok_iff.mpr ⟨_, rfl, hdata⟩),
      bind_of_eq_ok (ofData_eq_ok_iff.mpr ⟨hne, rfl⟩), bind_of_eq_ok hrest]
    rfl
  | @push o kind _ _ data ho hlength hdata hcapacity =>
    have hsize : data.length < UInt64.size := by
      have hle : kind.capacity ≤ 0xffffffff := by cases kind <;> decide
      apply Nat.lt_of_le_of_lt (Nat.le_trans hcapacity hle)
      decide
    have hpush := (ofPushWords_eq_ok_iff (o := o) ho).mpr
      ⟨data, ofHexWord_eq_ok_iff.mpr ⟨_, rfl, hdata⟩, rfl, hcapacity, rfl⟩
    have hname := o.ofList_toList_name_mem
    rw [List.cons_append, ofWords, if_neg (not_isSome_afterHexMark?_of_mem_mnemonics hname),
      bind_of_eq_ok (ofMnemonic_eq_ok_iff.mpr hname), PushKind.ofOpcode?_eq_some_iff.mpr ho,
      List.cons_append]
    dsimp only
    rw [bind_of_eq_ok (ofLengthWord_eq_ok_iff.mpr ⟨_, rfl, hlength, hsize⟩), List.cons_append]
    dsimp only
    rw [bind_of_eq_ok hpush, List.nil_append, bind_of_eq_ok hrest]

/-- What is read from words that are left begins with the token of a spelling. -/
theorem exists_spelling_of_ofWords {word : List Char} {words : List (List Char)}
    (h : ofWords (word :: words) = .ok ts) :
  ∃ item rest t ts', word :: words = item ++ rest ∧ ts = t :: ts' ∧ Spelling item t
    ∧ ofWords rest = .ok ts'
  := by
  rw [ofWords] at h
  split at h
  · obtain ⟨data, hdata, h⟩ := bind_eq_ok_iff.mp h
    obtain ⟨t, ht, h⟩ := bind_eq_ok_iff.mp h
    obtain ⟨ts', hrest, h⟩ := bind_eq_ok_iff.mp h
    cases h
    obtain ⟨digits, rfl, hdenotes⟩ := ofHexWord_eq_ok_iff.mp hdata
    obtain ⟨hne, rfl⟩ := ofData_eq_ok_iff.mp ht
    exact ⟨_, _, _, _, rfl, rfl, .data hdenotes hne (PushKind.isShortest_iff.mpr rfl), hrest⟩
  · obtain ⟨o, ho, hread⟩ := bind_eq_ok_iff.mp h
    clear h
    have hword := ofMnemonic_eq_ok_iff.mp ho
    split at hread
    · next hkind =>
      obtain ⟨ts', hrest, hts⟩ := bind_eq_ok_iff.mp hread
      cases hts
      exact ⟨_, _, _, _, rfl, rfl, .mnemonic hword (PushKind.ofOpcode?_eq_none_iff.mp hkind), hrest⟩
    · next kind hkind =>
      have hopcode := PushKind.ofOpcode?_eq_some_iff.mp hkind
      obtain rfl : word = o.name.toList := by
        rw [← PushKind.eq_name_of_mem_mnemonics hopcode hword, String.toList_ofList]
      split at hread
      · cases hread
      · obtain ⟨length, hlength, hmore⟩ := bind_eq_ok_iff.mp hread
        clear hread
        obtain ⟨lengthDigits, rfl, hnumeral, _⟩ := ofLengthWord_eq_ok_iff.mp hlength
        split at hmore
        · cases hmore
        · obtain ⟨t, ht, htokens⟩ := bind_eq_ok_iff.mp hmore
          obtain ⟨ts', hrest, hts⟩ := bind_eq_ok_iff.mp htokens
          cases hts
          obtain ⟨data, hdata, rfl, hcapacity, rfl⟩ := (ofPushWords_eq_ok_iff hopcode).mp ht
          obtain ⟨digits, rfl, hdenotes⟩ := ofHexWord_eq_ok_iff.mp hdata
          exact ⟨_, _, _, _, rfl, rfl, .push hopcode hnumeral hdenotes hcapacity, hrest⟩

/-- Words give tokens exactly if they can be split into spellings of these. -/
theorem ofWords_eq_ok_iff {words : List (List Char)} :
  ofWords words = .ok ts ↔ ∃ items, items.flatten = words ∧ List.Forall₂ Spelling items ts
  := by
  constructor
  · intro h
    induction ts generalizing words with
    | nil =>
      cases words with
      | nil => exact ⟨[], rfl, .nil⟩
      | cons word words =>
        obtain ⟨_, _, _, _, _, hts, _⟩ := exists_spelling_of_ofWords h
        cases hts
    | cons t ts ih =>
      cases words with
      | nil => cases h
      | cons word words =>
        obtain ⟨item, rest, _, _, hwords, hts, hitem, hrest⟩ := exists_spelling_of_ofWords h
        cases hts
        obtain ⟨items, rfl, hitems⟩ := ih hrest
        exact ⟨item :: items, hwords.symm, .cons hitem hitems⟩
  · rintro ⟨items, rfl, hitems⟩
    induction hitems with
    | nil => rfl
    | cons hitem _ ih => exact ofWords_spelling hitem ih

/-- The first word of a spelling tells how many words belong to it. -/
theorem Spelling.exists_cons (h : Spelling item t) :
  ∃ word more, item = word :: more
    ∧ more.length = if (Opcode.ofName? (String.ofList word)).any Opcode.isPushData then 2 else 0
  := by
  cases h with
  | @mnemonic word o hword ho =>
    refine ⟨word, [], rfl, ?_⟩
    rw [Opcode.ofName?_eq_some_iff.mpr hword, Option.any_some, ho]
    rfl
  | @data digits _ _ hdata _ _ =>
    refine ⟨hexWord digits, [], rfl, ?_⟩
    have hnone : Opcode.ofName? (String.ofList (hexWord digits)) = none := by
      apply Option.eq_none_iff_forall_not_mem.mpr
      intro o ho
      apply not_isSome_afterHexMark?_of_mem_mnemonics (Opcode.ofName?_eq_some_iff.mp ho)
      apply isSome_afterHexMark?_hexWord
    rw [hnone]
    rfl
  | @push o _ length digits _ ho _ _ _ =>
    refine ⟨o.name.toList, [hexWord length, hexWord digits], rfl, ?_⟩
    rw [String.ofList_toList, Opcode.ofName?_name, Option.any_some,
      PushKind.isPushData_of_opcode? ho]
    rfl

/-- Words can be split into spellings in at most one way. -/
theorem spellings_unique {items items' : List (List (List Char))} {ts' : List Token}
    (h : List.Forall₂ Spelling items ts) (h' : List.Forall₂ Spelling items' ts')
    (hwords : items.flatten = items'.flatten) :
  items = items'
  := by
  induction h generalizing items' ts' with
  | nil =>
    cases h' with
    | nil => rfl
    | cons hitem' _ =>
      obtain ⟨_, _, rfl, _⟩ := hitem'.exists_cons
      cases hwords
  | cons hitem _ ih =>
    obtain ⟨word, more, rfl, hlength⟩ := hitem.exists_cons
    cases h' with
    | nil => cases hwords
    | cons hitem' hitems' =>
      obtain ⟨word', more', rfl, hlength'⟩ := hitem'.exists_cons
      obtain ⟨rfl, hrest⟩ := List.cons.inj hwords
      obtain ⟨rfl, hflatten⟩ := List.append_inj hrest (hlength.trans hlength'.symm)
      rw [ih hitems' hflatten]

end Token

/-! ### Texts -/

/-- A text describes a script exactly if its words can be split into spellings of tokens which are a
script of the grammar, with conditionals at most `Program.maximumDepth` deep. The tokens of the
script are then those that are spelt, one by each item, and there is no other way to split the
words. -/
theorem Script.parse_grammar (text : String) :
  ((∃ script, parse text = .ok script)
    ↔ ∃ items ts, items.flatten = Text.words text.toList ∧ List.Forall₂ Token.Spelling items ts
      ∧ Grammar.IsScript Program.maximumDepth ts)
    ∧ ∀ script, parse text = .ok script →
      ∃ items ts, items.flatten = Text.words text.toList ∧ List.Forall₂ Token.Spelling items ts
        ∧ script.tokens = .ok ts
        ∧ ∀ items' ts', items'.flatten = Text.words text.toList →
          List.Forall₂ Token.Spelling items' ts' → items' = items ∧ ts' = ts
  := by
  constructor
  · simp only [parse, bind_eq_ok_iff, Token.ofText, Token.ofWords_eq_ok_iff, ofTokens_eq_ok_iff,
      Grammar.isScript_iff]
    constructor
    · rintro ⟨_, ts, ⟨items, hflatten, hitems⟩, p, hp, htokens, _⟩
      exact ⟨items, ts, hflatten, hitems, p, hp, htokens⟩
    · rintro ⟨items, ts, hflatten, hitems, p, hp, htokens⟩
      exact ⟨_, ts, ⟨items, hflatten, hitems⟩, p, hp, htokens, rfl⟩
  · intro script h
    obtain ⟨ts, hts, hscript⟩ := bind_eq_ok_iff.mp h
    obtain ⟨items, hflatten, hitems⟩ := Token.ofWords_eq_ok_iff.mp hts
    refine ⟨items, ts, hflatten, hitems, tokens_of_ofTokens hscript, ?_⟩
    intro items' ts' hflatten' hitems'
    constructor
    · apply Token.spellings_unique hitems' hitems (hflatten'.trans hflatten.symm)
    · have hts' := Token.ofWords_eq_ok_iff.mpr ⟨items', hflatten', hitems'⟩
      apply Except.ok.inj (hts'.symm.trans hts)

/-- A text with a second mnemonic, digits of either case and a length behind a plus sign. -/
theorem Script.parse_grammar_plus :
  let text := "OP_TRUE OP_IF OP_PUSHDATA1 0x+1 0xFF OP_ELSE 0x0a0B OP_ENDIF"
  let ts : List Token := [.op .one, .op .ifTrue, .push ⟨.data1, [0xff]⟩, .op .otherwise,
    .push ⟨.inline, [0x0a, 0x0b]⟩, .op .endIf]
  ∃ script items, parse text = .ok script ∧ script.tokens = .ok ts
    ∧ items.flatten = Text.words text.toList ∧ List.Forall₂ Token.Spelling items ts
    ∧ Grammar.IsScript Program.maximumDepth ts
  := by
  intro text ts
  have htext : Token.ofText text = .ok ts := eq_ok_of_toOption (by decide +kernel)
  obtain ⟨script, hscript⟩ : ∃ script, ofTokens ts = .ok script := ⟨_, rfl⟩
  have hparse : parse text = .ok script := by rw [parse, bind_of_eq_ok htext, hscript]
  obtain ⟨hgrammar, hall⟩ := parse_grammar text
  obtain ⟨items, ts', hflatten, hitems, htokens, hunique⟩ := hall script hparse
  obtain ⟨items', ts'', hflatten', hitems', hnested⟩ := hgrammar.mp ⟨script, hparse⟩
  obtain rfl : ts' = ts := Except.ok.inj (htokens.symm.trans (tokens_of_ofTokens hscript))
  obtain ⟨rfl, rfl⟩ := hunique items' ts'' hflatten' hitems'
  exact ⟨script, items', hparse, htokens, hflatten, hitems, hnested⟩

end Bitcoin
