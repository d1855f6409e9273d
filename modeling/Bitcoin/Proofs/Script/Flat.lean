import Bitcoin.Proofs.Script.Edit

/-!
# Scripts without conditionals

Tokens none of which is a delimiter are a script, whose program has one element for each of
them (`Program.flat`). The tokens of a built script are determined by its bytes when these
are the bytes of opcodes and of pushes with their length in the opcode byte
(`Script.tokens_of_bytes`).
-/

namespace Bitcoin

/-- Whether a token gives a script its structure. -/
def Token.isDelimiter : Token → Bool
  | .op o => o.isDelimiter
  | .push _ => false

namespace Program

/-- The program of tokens none of which is a delimiter. -/
def flat : List Token → Program
  | [] => .done
  | .op o :: rest => .op o (flat rest)
  | .push p :: rest => .push p (flat rest)

/-- A program without conditionals has the tokens that it was made of. -/
theorem tokens_flat (ts : List Token) :
  (flat ts).tokens = ts
  := by
  induction ts with
  | nil => rfl
  | cons t ts ih => cases t <;> rw [flat, tokens, ih]

theorem nested_flat {ts : List Token} (h : ∀ t ∈ ts, t.isDelimiter = false) (room : Nat) :
  (flat ts).Nested room
  := by
  induction ts with
  | nil => exact .done
  | cons t ts ih =>
    obtain ⟨ht, hts⟩ := List.forall_mem_cons.mp h
    cases t with
    | op o => exact .op ht (ih hts)
    | push p => exact .push (ih hts)

/-- A program that has no delimiters among its tokens is one token after the other. -/
theorem eq_flat {p : Program} (h : ∀ t ∈ p.tokens, t.isDelimiter = false) :
  p = .flat p.tokens
  := by
  induction p with
  | done => rfl
  | push p rest ih =>
    rw [tokens, flat, ← ih (fun t ht => h t (List.mem_cons_of_mem _ ht))]
  | op o rest ih =>
    rw [tokens, flat, ← ih (fun t ht => h t (List.mem_cons_of_mem _ ht))]
  | branch c body rest =>
    have hopener := h (.op c.opcode) List.mem_cons_self
    cases c <;> cases hopener
  | branchElse c body alternative rest =>
    have hopener := h (.op c.opcode) List.mem_cons_self
    cases c <;> cases hopener

end Program

/-- Tokens without delimiters can always be assembled. -/
theorem Script.ofTokens_flat {ts : List Token} (h : ∀ t ∈ ts, t.isDelimiter = false) :
  ofTokens ts = .ok (.assembled (.flat ts))
  := ofTokens_eq_ok_iff.mpr ⟨_, Program.nested_flat h _, Program.tokens_flat ts, rfl⟩

/-- Tokens without delimiters tell the program. -/
theorem Script.program_of_tokens {script : Script} {ts : List Token}
    (hflat : ∀ t ∈ ts, t.isDelimiter = false) (h : script.tokens = .ok ts) :
  script.program = .ok (.flat ts)
  := by
  obtain ⟨p, hp, rfl⟩ := tokens_eq_ok_iff.mp h
  rw [hp, ← Program.eq_flat hflat]

/-- There is nothing to remove from tokens that do not push the data. -/
theorem Script.removePush_of_absent {ts : List Token} (hflat : ∀ t ∈ ts, t.isDelimiter = false)
    {data : Bytes} (habsent : ∀ t ∈ ts, t.data? ≠ some data) {script : Script}
    (hscript : script.tokens = .ok ts) :
  script.removePush data = .ok (.assembled (.flat ts))
  := by
  have hkept : ts.filter (fun t => t.data? ≠ some data) = ts := by
    apply List.filter_eq_self.mpr
    exact fun t ht => decide_eq_true (habsent t ht)
  rw [removePush, bind_of_eq_ok hscript, hkept]
  apply ofTokens_flat hflat

/-- The bytes of readable tokens are taken apart into them again. -/
theorem Script.program_encoded_flat {ts : List Token} (hts : ∀ t ∈ ts, t.Readable)
    (hflat : ∀ t ∈ ts, t.isDelimiter = false) :
  (Script.encoded (Token.encodeAll ts)).program = .ok (.flat ts)
  := by
  apply program_encoded_eq_ok_iff.mpr
  rw [Program.tokens_flat]
  exact ⟨Token.decodeAll_eq_ok_iff.mpr ⟨rfl, hts⟩, Program.nested_flat hflat _⟩

/-! ### Tokens from bytes -/

/-- Whether a push can be built: only the longest form is used for data whose length it
cannot write. -/
def Push.WellFormed (p : Push) : Prop :=
  p.kind = .data4 ∨ p.Readable

/-- Whether a script can be built: a byte string, or the structure of tokens whose pushes can
be built. -/
def Script.WellFormed : Script → Prop
  | .encoded _ => True
  | .assembled p =>
    p.Nested Program.maximumDepth ∧ ∀ push : Push, .push push ∈ p.tokens → push.WellFormed

/-- The shortest form can write the length, unless no form can. -/
theorem PushKind.le_capacity_smallest {length : Nat} (h : smallest length ≠ .data4) :
  length ≤ (smallest length).capacity
  := by
  rw [smallest] at h ⊢
  split
  · next hle => exact hle
  · next hinline =>
    rw [if_neg hinline] at h
    split
    · next hle => exact hle
    · next hdata1 =>
      rw [if_neg hdata1] at h
      split
      · next hle => exact hle
      · next hdata2 =>
        rw [if_neg hdata2] at h
        apply absurd rfl h

/-- A push that is built for data is well-formed. -/
theorem Push.wellFormed_of_ofData {data : Bytes} {p : Push} (h : ofData data = .ok p) :
  p.WellFormed
  := by
  rw [ofData] at h
  split at h
  · cases h
  · next hne =>
    cases h
    by_cases hkind : PushKind.smallest data.length = .data4
    · exact .inl hkind
    · refine .inr ⟨PushKind.le_capacity_smallest hkind, ?_⟩
      intro _ hnil
      apply hne (List.isEmpty_iff.mpr hnil)

/-- Whether a token is an opcode that introduces no data, or a push with its length in the
opcode byte. -/
def Token.IsShort : Token → Prop
  | .op o => PushKind.ofOpcode? o = none
  | .push p => p.kind = .inline ∧ p.Readable

namespace Token

theorem IsShort.readable {t : Token} (h : t.IsShort) :
  t.Readable
  := by
  cases t with
  | op o => apply h
  | push p => apply h.2

theorem encode_inline (data : Bytes) :
  (Token.push ⟨.inline, data⟩).encode = UInt8.ofNat data.length :: data
  := rfl

/-- The byte in front of inline data is its length. -/
theorem toNat_inline {data : Bytes} (h : (⟨.inline, data⟩ : Push).Readable) :
  (UInt8.ofNat data.length).toNat = data.length ∧ 0 < data.length ∧ data.length ≤ 75
  := by
  obtain ⟨hle, hne⟩ := h
  have hle : data.length ≤ 75 := hle
  refine ⟨?_, List.length_pos_iff.mpr (hne rfl), hle⟩
  rw [UInt8.toNat_ofNat']
  omega

/-- The byte in front of inline data is not that of an opcode. -/
theorem inline_ne_toByte {data : Bytes} (h : (⟨.inline, data⟩ : Push).Readable) (o : Opcode) :
  UInt8.ofNat data.length ≠ o.toByte
  := by
  intro e
  obtain ⟨hnat, hpos, hle⟩ := toNat_inline h
  apply o.not_inline_toByte
  rw [← e, UInt8.le_iff_toNat_le, UInt8.le_iff_toNat_le, hnat]
  exact ⟨hpos, hle⟩

/-- A built push either has its length in its first byte, or begins with an opcode. -/
theorem push_cases {p : Push} (h : p.WellFormed) :
  (p.kind = .inline ∧ p.Readable)
    ∨ ∃ o rest, PushKind.ofOpcode? o = some p.kind ∧ (Token.push p).encode = o.toByte :: rest
  := by
  cases hopcode : p.kind.opcode? with
  | none =>
    have hkind : p.kind = .inline := by
      cases hkind : p.kind <;> first | rfl | (rw [hkind] at hopcode; cases hopcode)
    rcases h with h | h
    · rw [hkind] at h
      cases h
    · exact .inl ⟨hkind, h⟩
  | some o =>
    refine .inr ⟨o, Bytes.ofNatLE p.kind.lengthWidth p.data.length ++ p.data,
      PushKind.ofOpcode?_eq_some_iff.mpr hopcode, ?_⟩
    rw [encode, Push.encode, Push.heading, hopcode]
    rfl

/-- A token in front of other bytes is recognised if its form is short. -/
theorem IsShort.eq_of_encode_append
    {t u : Token} {rest rest' : Bytes} (hu : u.IsShort) (ht : ∀ p, t = .push p → p.WellFormed)
    (h : t.encode ++ rest = u.encode ++ rest') :
  t = u ∧ rest = rest'
  := by
  cases t with
  | op o =>
    cases u with
    | op o' =>
      obtain ⟨hbyte, hrest⟩ := List.cons.inj h
      exact ⟨congrArg Token.op (Opcode.toByte_inj hbyte), hrest⟩
    | push q =>
      obtain ⟨kind, data⟩ := q
      obtain ⟨rfl, hreadable⟩ := hu
      obtain ⟨hbyte, _⟩ := List.cons.inj h
      apply absurd hbyte.symm (inline_ne_toByte hreadable o)
  | push p =>
    rcases push_cases (ht p rfl) with ⟨hkind, hreadable⟩ | ⟨o, more, ho, hencode⟩
    · obtain ⟨kind, data⟩ := p
      obtain rfl : kind = .inline := hkind
      cases u with
      | op o' =>
        obtain ⟨hbyte, _⟩ := List.cons.inj h
        apply absurd hbyte (inline_ne_toByte hreadable o')
      | push q =>
        obtain ⟨kind', data'⟩ := q
        obtain ⟨rfl, hreadable'⟩ := hu
        obtain ⟨hbyte, hrest⟩ := List.cons.inj h
        have hlength : data.length = data'.length := by
          rw [← (toNat_inline hreadable).1, hbyte, (toNat_inline hreadable').1]
        have hrest : data ++ rest = data' ++ rest' := hrest
        obtain ⟨hdata, hmore⟩ := List.append_inj hrest hlength
        rw [hdata]
        exact ⟨rfl, hmore⟩
    · rw [hencode] at h
      cases u with
      | op o' =>
        obtain ⟨hbyte, _⟩ := List.cons.inj h
        obtain rfl := Opcode.toByte_inj hbyte
        have hnone : PushKind.ofOpcode? o = none := hu
        rw [ho] at hnone
        cases hnone
      | push q =>
        obtain ⟨kind', data'⟩ := q
        obtain ⟨rfl, hreadable'⟩ := hu
        obtain ⟨hbyte, _⟩ := List.cons.inj h
        apply absurd hbyte.symm (inline_ne_toByte hreadable' o)

/-- Tokens with short forms are the only ones with their bytes. -/
theorem eq_of_encodeAll_eq
    {ts us : List Token} (hus : ∀ u ∈ us, u.IsShort)
    (hts : ∀ p, .push p ∈ ts → p.WellFormed) (h : encodeAll ts = encodeAll us) :
  ts = us
  := by
  induction us generalizing ts with
  | nil => apply encodeAll_eq_nil_iff.mp h
  | cons u us ih =>
    cases ts with
    | nil => apply absurd h.symm (by simp [encode_ne_nil])
    | cons t ts =>
      obtain ⟨hu, hmore⟩ := List.forall_mem_cons.mp hus
      have ht : ∀ p, t = .push p → p.WellFormed := by
        rintro p rfl
        apply hts p List.mem_cons_self
      obtain ⟨rfl, hrest⟩ := hu.eq_of_encode_append ht h
      rw [ih hmore (fun p hp => hts p (List.mem_cons_of_mem t hp)) hrest]

/-- A token that pushes data has at least their length. -/
theorem length_data_le (p : Push) :
  p.data.length ≤ (Token.push p).encode.length
  := by
  rw [encode, Push.encode, List.length_append]
  apply Nat.le_add_left

/-- A push in front of other bytes that begin with a short token can be read if its data is short,
too; only a push of no data might have the byte of a zero. -/
theorem wellFormed_of_encode_append {p : Push} {u : Token} {rest rest' : Bytes} (hu : u.IsShort)
    (hzero : u ≠ .op .zero) (hlength : p.data.length ≤ 75)
    (h : (Token.push p).encode ++ rest = u.encode ++ rest') :
  p.WellFormed
  := by
  have hcapacity : 75 ≤ p.kind.capacity := by cases p.kind <;> decide
  refine .inr ⟨Nat.le_trans hlength hcapacity, ?_⟩
  intro hkind hnil
  obtain ⟨kind, data⟩ := p
  obtain rfl : kind = .inline := hkind
  obtain rfl : data = [] := hnil
  cases u with
  | op o =>
    obtain ⟨hbyte, _⟩ := List.cons.inj h
    obtain rfl : Opcode.zero = o := Opcode.toByte_inj hbyte
    exact hzero rfl
  | push q =>
    obtain ⟨kind, data⟩ := q
    obtain ⟨rfl, hreadable⟩ := hu
    obtain ⟨hbyte, _⟩ := List.cons.inj h
    exact inline_ne_toByte hreadable .zero hbyte.symm

/-- Few bytes of short tokens, none of them a zero, are the bytes of no other tokens, not even of
such as cannot be built. -/
theorem eq_of_encodeAll_eq_of_length_le {ts us : List Token}
    (hus : ∀ u ∈ us, u.IsShort ∧ u ≠ .op .zero) (hlength : (encodeAll us).length ≤ 75)
    (h : encodeAll ts = encodeAll us) :
  ts = us
  := by
  induction us generalizing ts with
  | nil => apply encodeAll_eq_nil_iff.mp h
  | cons u us ih =>
    cases ts with
    | nil => apply absurd h.symm (by simp [encode_ne_nil])
    | cons t ts =>
      obtain ⟨⟨hu, hzero⟩, hmore⟩ := List.forall_mem_cons.mp hus
      have hbytes := congrArg List.length h
      simp only [encodeAll_cons, List.length_append] at hbytes hlength
      have ht : ∀ p, t = .push p → p.WellFormed := by
        rintro p rfl
        have hdata := length_data_le p
        apply wellFormed_of_encode_append hu hzero (by omega) h
      obtain ⟨rfl, hrest⟩ := hu.eq_of_encode_append ht h
      rw [ih hmore (by omega) hrest]

end Token

/-- A built script with the bytes of short tokens has these tokens. -/
theorem Script.WellFormed.tokens_of_bytes
    {script : Script} (h : script.WellFormed) {ts : List Token} (hts : ∀ t ∈ ts, t.IsShort)
    (hflat : ∀ t ∈ ts, t.isDelimiter = false) (hbytes : script.bytes = Token.encodeAll ts) :
  script.tokens = .ok ts
  := by
  cases script with
  | encoded bytes =>
    obtain rfl : bytes = Token.encodeAll ts := hbytes
    have hprogram := program_encoded_flat (fun t ht => (hts t ht).readable) hflat
    apply tokens_eq_ok_iff.mpr ⟨.flat ts, hprogram, Program.tokens_flat ts⟩
  | assembled p =>
    have e : p.tokens = ts := by
      apply Token.eq_of_encodeAll_eq hts h.2
      rw [← Program.encode_eq]
      apply hbytes
    apply tokens_eq_ok_iff.mpr ⟨p, rfl, e⟩

/-- A script with few bytes, which are those of short tokens and none of them a zero, is run as
these tokens, even if it consists of tokens that cannot be built. -/
theorem Script.program_of_bytes {script : Script} {ts : List Token}
    (hts : ∀ t ∈ ts, t.IsShort ∧ t ≠ .op .zero) (hlength : (Token.encodeAll ts).length ≤ 75)
    (hflat : ∀ t ∈ ts, t.isDelimiter = false) (hbytes : script.bytes = Token.encodeAll ts) :
  script.program = .ok (.flat ts)
  := by
  cases script with
  | encoded bytes =>
    obtain rfl : bytes = Token.encodeAll ts := hbytes
    exact program_encoded_flat (fun t ht => (hts t ht).1.readable) hflat
  | assembled p =>
    have htokens : p.tokens = ts := by
      apply Token.eq_of_encodeAll_eq_of_length_le hts hlength
      rw [← Program.encode_eq]
      apply hbytes
    apply program_of_tokens hflat
    exact congrArg Except.ok htokens

/-- A script of no bytes has no tokens. -/
theorem Script.program_of_bytes_eq_nil {script : Script} (h : script.bytes = []) :
  script.program = .ok .done
  := by
  cases script with
  | encoded bytes =>
    obtain rfl : bytes = [] := h
    rfl
  | assembled p =>
    have htokens : p.tokens = [] := by
      apply Token.encodeAll_eq_nil_iff.mp
      rw [← Program.encode_eq]
      apply h
    cases p with
    | done => rfl
    | push p rest => cases htokens
    | op o rest => cases htokens
    | branch c body rest => cases htokens
    | branchElse c body alternative rest => cases htokens

end Bitcoin
