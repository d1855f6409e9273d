import Bitcoin.Proofs.Hex
import Bitcoin.Proofs.Script.Spelling

/-!
# Scripts in text are read back

The text of a token is one word, or three for a push that is not in its shortest form. The
words of the text of a readable token spell it (`Token.spelling_text`), and so readable tokens
are read back from their text (`Token.ofText_textAll`). A text gives only tokens that can be
built; those among them whose data is not too long for any form of push are readable
(`Token.readable_of_ofText`).

Bytes, tokens and text of a script are hence three views of the same script
(`Script.views_faithful`).
-/

namespace Bitcoin

open Text

/-! ### Mnemonics -/

theorem Opcode.solid_name (o : Opcode) :
  Solid o.name.toList
  := by
  have hall : (o.name.toList.all fun c => !isBlank c) = true := by
    cases o <;> decide +kernel
  intro c hc
  simpa using List.all_eq_true.mp hall c hc

theorem Opcode.words_name (o : Opcode) :
  words o.name.toList = [o.name.toList]
  := by
  apply words_of_solid o.solid_name
  obtain ⟨rest, hrest⟩ := o.exists_toList_name
  rw [hrest]
  apply List.cons_ne_nil

/-! ### Numbers and data -/

theorem Numeral.solid_hex (width n : Nat) :
  Solid (hex width n).toList
  := by
  obtain ⟨ds, htext, hds, _⟩ := exists_toList_hex width n
  rw [htext]
  intro c hc
  obtain ⟨d, hd, rfl⟩ := List.mem_map.mp hc
  apply isBlank_hexDigit (hds d hd)

/-- A number has the numerals of all widths. -/
theorem Numeral.isHexNumeral_hex (width n : Nat) :
  IsHexNumeral (hex width n).toList n
  := (parse?_sixteen_eq_some_iff.mp (parse?_hex n.lt_succ_self width)).1

/-- Encoded bytes denote the bytes. -/
theorem Hex.denotes_encodeChars (data : Bytes) :
  Denotes (encodeChars data) data
  := decodeChars_eq_ok_iff.mp (decodeChars_encodeChars data)

namespace Token

/-- Digits behind the mark of hexadecimal numbers are a single word. -/
theorem words_hexWord {digits : List Char} (h : Solid digits) :
  words (hexWord digits) = [hexWord digits]
  := by
  apply words_of_solid _ (List.cons_ne_nil _ _)
  exact List.forall_mem_cons.mpr ⟨rfl, List.forall_mem_cons.mpr ⟨rfl, h⟩⟩

/-! ### The words of tokens -/

theorem toList_dataText (data : Bytes) :
  ("0x" ++ Hex.encode data).toList = hexWord (Hex.encodeChars data)
  := by
  simp [Hex.encode, hexWord]

theorem toList_pushText (o : Opcode) (width length : Nat) (data : Bytes) :
  (o.name ++ " 0x" ++ Numeral.hex width length ++ " " ++ ("0x" ++ Hex.encode data)).toList
    = o.name.toList
      ++ ' ' :: (hexWord (Numeral.hex width length).toList ++ ' ' :: hexWord (Hex.encodeChars data))
  := by
  simp [Hex.encode, hexWord]

/-- A push is written without its opcode if it is the smallest one for its data. -/
theorem isMinimal_iff {kind : PushKind} {data : Bytes} :
  (⟨kind, data⟩ : Push).isMinimal = true ↔ data ≠ [] ∧ kind = PushKind.smallest data.length
  := by
  rw [Push.isMinimal, Bool.and_eq_true, Bool.not_eq_true', List.isEmpty_eq_false_iff, beq_iff_eq]

/-- A push in the opcode byte has no shorter form. -/
theorem isMinimal_inline {data : Bytes} (h : (⟨.inline, data⟩ : Push).Readable) :
  (⟨.inline, data⟩ : Push).isMinimal = true
  := by
  obtain ⟨hcapacity, hne⟩ := h
  have hsmallest : PushKind.smallest data.length = .inline := if_pos hcapacity
  rw [Push.isMinimal, hsmallest, List.isEmpty_eq_false_iff.mpr (hne rfl)]
  rfl

/-- The words of the text of a readable token spell it. -/
theorem spelling_text {t : Token} (h : t.Readable) :
  Spelling (words t.text.toList) t
  := by
  cases t with
  | op o =>
    rw [text, o.words_name]
    apply Spelling.mnemonic o.ofList_toList_name_mem (PushKind.ofOpcode?_eq_none_iff.mp h)
  | push p =>
    obtain ⟨kind, data⟩ := p
    have hdenotes := Hex.denotes_encodeChars data
    have hdata := words_hexWord (Hex.solid_encodeChars data)
    rw [text, Push.text]
    by_cases hminimal : (⟨kind, data⟩ : Push).isMinimal = true
    · rw [if_pos hminimal, toList_dataText, hdata]
      obtain ⟨hne, hkind⟩ := isMinimal_iff.mp hminimal
      apply Spelling.data hdenotes hne (PushKind.isShortest_iff.mpr hkind)
    · cases hopcode : kind.opcode? with
      | none =>
        obtain rfl : kind = .inline := by cases kind <;> first | rfl | cases hopcode
        apply absurd (isMinimal_inline h) hminimal
      | some o =>
        rw [if_neg hminimal]
        dsimp only
        have hlength := words_hexWord (Numeral.solid_hex (2 * kind.lengthWidth) data.length)
        rw [toList_pushText, words_append_blank rfl, words_append_blank rfl, o.words_name, hlength,
          hdata]
        apply Spelling.push hopcode (Numeral.isHexNumeral_hex _ _) hdenotes h.1

/-- Readable tokens are read back from their text. -/
theorem ofText_textAll {ts : List Token} (h : ∀ t ∈ ts, t.Readable) :
  ofText (textAll ts) = .ok ts
  := by
  have hwords : words (textAll ts).toList = (ts.map fun t => words t.text.toList).flatten := by
    rw [textAll, String.toList_intercalate, List.map_map]
    change words ([' '].intercalate _) = _
    rw [words_intercalate rfl, List.flatMap_map]
    rfl
  rw [ofText, hwords]
  apply ofWords_eq_ok_iff.mpr
  use ts.map fun t => words t.text.toList, rfl
  rw [List.forall₂_map_left_iff, List.forall₂_same]
  exact fun t ht => spelling_text (h t ht)

/-! ### What texts give -/

/-- Whether a token can be built: it is an opcode that introduces no data, or a push that can
be built. -/
def WellFormed : Token → Prop
  | .op o => PushKind.ofOpcode? o = none
  | .push p => p.WellFormed

/-- Tokens that can be built are readable, unless their data is too long. -/
theorem WellFormed.readable {t : Token} (h : t.WellFormed)
    (hshort : ∀ p, t = .push p → p.data.length < 2 ^ 32) :
  t.Readable
  := by
  cases t with
  | op o => exact h
  | push p =>
    rcases h with hkind | hreadable
    · constructor
      · rw [hkind]
        apply Nat.le_of_lt_succ (hshort p rfl)
      · rw [hkind]
        rintro ⟨⟩
    · exact hreadable

/-- What is spelt can be built. -/
theorem Spelling.wellFormed {item : List (List Char)} {t : Token} (h : Spelling item t) :
  t.WellFormed
  := by
  cases h with
  | mnemonic _ ho => exact PushKind.ofOpcode?_eq_none_iff.mpr ho
  | data _ hne hkind =>
    obtain rfl := PushKind.isShortest_iff.mp hkind
    apply Push.wellFormed_of_ofData
    rw [Push.ofData, if_neg (List.isEmpty_iff.not.mpr hne)]
  | push ho _ _ hcapacity =>
    refine .inr ⟨hcapacity, ?_⟩
    intro hinline
    subst hinline
    cases ho

/-- The tokens of a text can be built. -/
theorem wellFormed_of_ofWords {ws : List (List Char)} {ts : List Token}
    (h : ofWords ws = .ok ts) :
  ∀ t ∈ ts, t.WellFormed
  := by
  obtain ⟨items, rfl, hitems⟩ := ofWords_eq_ok_iff.mp h
  clear h
  induction hitems with
  | nil => exact List.forall_mem_nil _
  | cons hitem _ ih => exact List.forall_mem_cons.mpr ⟨hitem.wellFormed, ih⟩

/-- The tokens of a text are readable, if none has data that is too long. -/
theorem readable_of_ofText {text : String} {ts : List Token} (h : ofText text = .ok ts)
    (hshort : ∀ p, .push p ∈ ts → p.data.length < 2 ^ 32) :
  ∀ t ∈ ts, t.Readable
  := by
  intro t ht
  apply (wellFormed_of_ofWords h t ht).readable
  rintro p rfl
  apply hshort p ht

end Token

/-! ### The three views -/

namespace Script

/-- The tokens of a byte string are readable, and the byte string is theirs. -/
theorem tokens_encoded_eq_ok_iff {bytes : Bytes} {ts : List Token} :
  (encoded bytes).tokens = .ok ts
    ↔ (Token.encodeAll ts = bytes ∧ ∀ t ∈ ts, t.Readable) ∧ ∃ script, ofTokens ts = .ok script
  := by
  rw [tokens_eq_ok_iff, ← Token.decodeAll_eq_ok_iff]
  constructor
  · rintro ⟨p, hp, rfl⟩
    obtain ⟨hdecode, hnested⟩ := program_encoded_eq_ok_iff.mp hp
    exact ⟨hdecode, _, ofTokens_eq_ok_iff.mpr ⟨p, hnested, rfl, rfl⟩⟩
  · rintro ⟨hdecode, script, hscript⟩
    obtain ⟨p, hnested, rfl, rfl⟩ := ofTokens_eq_ok_iff.mp hscript
    exact ⟨p, program_encoded_eq_ok_iff.mpr ⟨hdecode, hnested⟩, rfl⟩

/-- An assembled script has the tokens that it was assembled from, and their bytes. -/
theorem of_ofTokens {ts : List Token} {script : Script} (h : ofTokens ts = .ok script) :
  script.tokens = .ok ts ∧ script.bytes = Token.encodeAll ts
  := by
  obtain ⟨p, _, rfl, rfl⟩ := ofTokens_eq_ok_iff.mp h
  exact ⟨rfl, p.encode_eq⟩

/-- The text of a script is that of its tokens. -/
theorem text_of_tokens {script : Script} {ts : List Token} (h : script.tokens = .ok ts) :
  script.text = .ok (Token.textAll ts)
  := by
  rw [Script.text, h]
  rfl

/-- A script is read back from the text of readable tokens. -/
theorem parse_textAll {ts : List Token} {script : Script} (hts : ∀ t ∈ ts, t.Readable)
    (h : ofTokens ts = .ok script) :
  parse (Token.textAll ts) = .ok script
  := by
  rw [parse, bind_of_eq_ok (Token.ofText_textAll hts), h]

/-- The bytes, the tokens and the text of a script are faithful views of it. A byte string that
has tokens is the form of the script that is assembled from them, and of the one that its text
describes. A script that a text describes, with no data that is too long to be pushed, has the
same tokens and the same text as its bytes, and this text describes it. -/
theorem views_faithful :
  (∀ (bytes : Bytes) (tokens : List Token), (encoded bytes).tokens = .ok tokens →
      ∃ script text, ofTokens tokens = .ok script ∧ script.bytes = bytes
        ∧ (encoded bytes).text = .ok text ∧ parse text = .ok script)
    ∧ ∀ (text : String) (script : Script), parse text = .ok script →
      ∃ tokens, script.tokens = .ok tokens
        ∧ ((∀ p, .push p ∈ tokens → p.data.length < 2 ^ 32) →
          (encoded script.bytes).tokens = .ok tokens
          ∧ ∃ text', script.text = .ok text' ∧ (encoded script.bytes).text = .ok text'
            ∧ parse text' = .ok script)
  := by
  constructor
  · intro bytes tokens h
    obtain ⟨⟨hbytes, hreadable⟩, script, hscript⟩ := tokens_encoded_eq_ok_iff.mp h
    exact ⟨script, Token.textAll tokens, hscript, (of_ofTokens hscript).2.trans hbytes,
      text_of_tokens h, parse_textAll hreadable hscript⟩
  · intro text script h
    obtain ⟨tokens, htokens, hscript⟩ := bind_eq_ok_iff.mp h
    obtain ⟨hown, hbytes⟩ := of_ofTokens hscript
    refine ⟨tokens, hown, fun hshort => ?_⟩
    have hreadable := Token.readable_of_ofText htokens hshort
    have hencoded : (encoded script.bytes).tokens = .ok tokens :=
      tokens_encoded_eq_ok_iff.mpr ⟨⟨hbytes.symm, hreadable⟩, script, hscript⟩
    exact ⟨hencoded, Token.textAll tokens, text_of_tokens hown, text_of_tokens hencoded,
      parse_textAll hreadable hscript⟩

/-- Conditionals with pushes that are empty or not in their shortest form, as bytes and as a
text that writes an opcode and the lengths otherwise. -/
theorem views_faithful_nested :
  let bytes : Bytes := [0x51, 0x63, 0x4c, 0x01, 0xff, 0x67, 0x64, 0x4d, 0x00, 0x00, 0x68, 0x4e,
    0x00, 0x00, 0x00, 0x00, 0x68]
  let text := "OP_TRUE OP_IF OP_PUSHDATA1 0x1 0xFF OP_ELSE  OP_NOTIF OP_PUSHDATA2 0x0 0x OP_ENDIF "
    ++ "OP_PUSHDATA4 0x000 0x OP_ENDIF"
  ∃ (script : Script) (canonical : String), parse text = .ok script ∧ script.bytes = bytes
    ∧ (encoded bytes).tokens = script.tokens
    ∧ script.text = .ok canonical ∧ parse canonical = .ok script
  := by
  intro bytes text
  let tokens : List Token := [.op .one, .op .ifTrue, .push ⟨.data1, [0xff]⟩, .op .otherwise,
    .op .ifFalse, .push ⟨.data2, []⟩, .op .endIf, .push ⟨.data4, []⟩, .op .endIf]
  have hbytes : (encoded bytes).tokens = .ok tokens := eq_ok_of_toOption (by decide +kernel)
  have htext : Token.ofText text = .ok tokens := eq_ok_of_toOption (by decide +kernel)
  obtain ⟨script, _, hscript, hsame, _⟩ := views_faithful.1 bytes tokens hbytes
  have hparse : parse text = .ok script := by rw [parse, bind_of_eq_ok htext, hscript]
  obtain ⟨tokens', hown, hviews⟩ := views_faithful.2 text script hparse
  obtain rfl : tokens = tokens' := Except.ok.inj ((of_ofTokens hscript).1.symm.trans hown)
  have hshort : ∀ p, .push p ∈ tokens → p.data.length < 2 ^ 32 := by
    intro p hp
    have hle : p.data.length ≤ 1 := by
      simp only [tokens, List.mem_cons, Token.push.injEq, List.not_mem_nil, reduceCtorEq,
        false_or, or_false] at hp
      rcases hp with rfl | rfl | rfl <;> decide
    omega
  obtain ⟨_, canonical, hcanonical, _, hparsed⟩ := hviews hshort
  exact ⟨script, canonical, hparse, hsame, hbytes.trans hown.symm, hcanonical, hparsed⟩

end Script

end Bitcoin
