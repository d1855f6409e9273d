import Bitcoin.Proofs.Except
import Bitcoin.Proofs.Wire.Reader
import Bitcoin.Script.Program

/-!
# Tokens and their bytes

`Token.Readable` are the tokens that a byte string can be taken apart into: opcodes that
introduce no data, and pushes whose form can write the length of the data. A byte string is
taken apart into tokens exactly if they are readable and their bytes are the byte string
(`Token.decodeAll_eq_ok_iff`); so readable tokens are determined by their bytes.
-/

namespace Bitcoin

open Reader

theorem Opcode.ofByte?_toByte (o : Opcode) :
  ofByte? o.toByte = some o
  := by
  cases o <;> rfl

theorem Opcode.toByte_of_ofByte? {byte : UInt8} {o : Opcode} (h : ofByte? byte = some o) :
  o.toByte = byte
  := by
  simpa using List.find?_some h

/-- Different opcodes have different bytes. -/
theorem Opcode.toByte_inj {o o' : Opcode} (h : o.toByte = o'.toByte) :
  o = o'
  := by
  have ho := ofByte?_toByte o
  rw [h, ofByte?_toByte] at ho
  apply (Option.some.inj ho).symm

/-- The bytes that stand for the length of data are no opcodes. -/
theorem Opcode.not_inline_toByte (o : Opcode) :
  ¬ (0x01 ≤ o.toByte ∧ o.toByte ≤ 0x4b)
  := by
  cases o <;> decide

theorem PushKind.ofOpcode?_eq_some_iff {o : Opcode} {kind : PushKind} :
  ofOpcode? o = some kind ↔ kind.opcode? = some o
  := by
  constructor
  · intro h
    cases o <;> cases h <;> rfl
  · intro h
    cases kind <;> cases h <;> rfl

/-- A form with an opcode writes the lengths below a power of the base. -/
theorem PushKind.lt_pow_lengthWidth_iff {o : Opcode} {kind : PushKind} (h : kind.opcode? = some o)
    (length : Nat) :
  length < 256 ^ kind.lengthWidth ↔ length ≤ kind.capacity
  := by
  cases kind with
  | inline => cases h
  | data1 | data2 | data4 => apply Nat.lt_succ_iff

/-- Whether the form of a push can write the length of its data. -/
def Push.Readable (p : Push) : Prop :=
  p.data.length ≤ p.kind.capacity ∧ (p.kind = .inline → p.data ≠ [])

instance (p : Push) : Decidable p.Readable := by
  unfold Push.Readable
  infer_instance

namespace Token

/-- Whether a byte string can be taken apart into the token. -/
def Readable : Token → Prop
  | .op o => PushKind.ofOpcode? o = none
  | .push p => p.Readable

instance (t : Token) : Decidable t.Readable := by
  cases t <;> unfold Readable <;> infer_instance

@[simp]
theorem encodeAll_nil :
  encodeAll [] = []
  := rfl

@[simp]
theorem encodeAll_cons (t : Token) (ts : List Token) :
  encodeAll (t :: ts) = t.encode ++ encodeAll ts
  := rfl

/-- The bytes of tokens follow each other. -/
@[simp]
theorem encodeAll_append (ts us : List Token) :
  encodeAll (ts ++ us) = encodeAll ts ++ encodeAll us
  := List.flatMap_append

/-- A token has at least one byte. -/
theorem encode_ne_nil (t : Token) :
  t.encode ≠ []
  := by
  cases t with
  | op o => simp [encode]
  | push p => cases h : p.kind.opcode? <;> simp [encode, Push.encode, Push.heading, h]

/-- Every token has bytes. -/
theorem encodeAll_eq_nil_iff {ts : List Token} :
  encodeAll ts = [] ↔ ts = []
  := by
  cases ts with
  | nil => simp
  | cons t ts => simp [encode_ne_nil]

/-! ### Taking the bytes of tokens apart -/

theorem takes_readPush {kind : PushKind} {data : Bytes}
    (h : data.length < 256 ^ kind.lengthWidth) :
  Takes (readPush kind) (Bytes.ofNatLE kind.lengthWidth data.length ++ data) (.push ⟨kind, data⟩)
  := (takes_natLE h).bind ((takes_take data).map _)

/-- A push with its length in the opcode byte is taken. -/
theorem takes_read_inline {data : Bytes} (h : data.length ≤ 75) (hne : data ≠ []) :
  Takes read (UInt8.ofNat data.length :: data) (.push ⟨.inline, data⟩)
  := by
  have hpos : 0 < data.length := List.length_pos_iff.mpr hne
  have e : (UInt8.ofNat data.length).toNat = data.length := by
    rw [UInt8.toNat_ofNat']
    omega
  have hinline : 0x01 ≤ UInt8.ofNat data.length ∧ UInt8.ofNat data.length ≤ 0x4b := by
    rw [UInt8.le_iff_toNat_le, UInt8.le_iff_toNat_le, e]
    exact ⟨hpos, h⟩
  have htake : Takes (Reader.take (UInt8.ofNat data.length).toNat) data data := by
    rw [e]
    apply takes_take data
  apply Takes.get_bind
  intro start
  apply (takes_u8 (UInt8.ofNat data.length)).bind
  rw [if_pos hinline]
  apply htake.map _

/-- An opcode is taken, along with the data that it introduces. -/
theorem takes_read_opcode {o : Opcode} {bytes : Bytes} {t : Token}
    (h : match PushKind.ofOpcode? o with
      | some kind => Takes (readPush kind) bytes t
      | none => bytes = [] ∧ t = .op o) :
  Takes read (o.toByte :: bytes) t
  := by
  apply Takes.get_bind
  intro start
  apply (takes_u8 o.toByte).bind
  rw [if_neg o.not_inline_toByte, Opcode.ofByte?_toByte]
  dsimp only
  cases hkind : PushKind.ofOpcode? o with
  | some kind =>
    rw [hkind] at h
    apply h
  | none =>
    rw [hkind] at h
    obtain ⟨rfl, rfl⟩ := h
    exact .pure _

/-- A readable token is read back, and nothing behind it is taken. -/
theorem takes_read {t : Token} (h : t.Readable) :
  Takes read t.encode t
  := by
  cases t with
  | op o =>
    apply takes_read_opcode
    rw [h]
    exact ⟨rfl, rfl⟩
  | push p =>
    obtain ⟨kind, data⟩ := p
    obtain ⟨hcapacity, hne⟩ := h
    cases hopcode : kind.opcode? with
    | none =>
      obtain rfl : kind = .inline := by cases kind <;> first | rfl | cases hopcode
      apply takes_read_inline hcapacity (hne rfl)
    | some o =>
      rw [encode, Push.encode, Push.heading, hopcode]
      apply takes_read_opcode
      rw [PushKind.ofOpcode?_eq_some_iff.mpr hopcode]
      apply takes_readPush ((PushKind.lt_pow_lengthWidth_iff hopcode _).mpr hcapacity)

/-- Nothing more is read at the end. -/
theorem readAfter_of_atEnd (bound : Nat) (done : List Token) {cursor : Cursor}
    (h : cursor.rest = []) :
  readAfter bound done cursor = .ok done.reverse cursor
  := by
  cases bound with
  | zero => rfl
  | succ bound =>
    change (if cursor.atEnd = true then _ else _ : Reader (List Token)) cursor = _
    rw [if_pos (by rw [Cursor.atEnd, h]; rfl)]
    rfl

theorem readAfter_of_not_atEnd (bound : Nat) (done : List Token) {cursor : Cursor}
    (h : cursor.rest ≠ []) :
  readAfter (bound + 1) done cursor = (read >>= fun t => readAfter bound (t :: done)) cursor
  := by
  change (if cursor.atEnd = true then _ else _ : Reader (List Token)) cursor = _
  rw [if_neg (by rw [Cursor.atEnd, List.isEmpty_iff]; exact h)]

/-- Tokens are taken from their bytes up to the end. -/
theorem readAfter_encodeAll
    {ts : List Token} (h : ∀ t ∈ ts, t.Readable) {bound : Nat}
    (hbound : (encodeAll ts).length ≤ bound) (done : List Token) (position : Nat) :
  ∃ place, readAfter bound done ⟨position, encodeAll ts⟩ = .ok (done.reverse ++ ts) ⟨place, []⟩
  := by
  induction ts generalizing bound done position with
  | nil =>
    rw [readAfter_of_atEnd _ _ rfl, List.append_nil]
    exact ⟨position, rfl⟩
  | cons t ts ih =>
    have hpos : 0 < t.encode.length := List.length_pos_iff.mpr t.encode_ne_nil
    rw [encodeAll_cons, List.length_append] at hbound
    obtain ⟨bound, rfl⟩ : ∃ n, bound = n + 1 := ⟨bound - 1, by omega⟩
    have hne : encodeAll (t :: ts) ≠ [] := by simp [encode_ne_nil]
    have hts : ∀ u ∈ ts, u.Readable := fun u hu => h u (List.mem_cons_of_mem t hu)
    obtain ⟨place, hrest⟩ := @ih hts bound (by omega) (t :: done) (position + t.encode.length)
    use place
    rw [readAfter_of_not_atEnd _ _ hne, encodeAll_cons]
    change EStateM.bind read _ _ = _
    rw [EStateM.bind, takes_read (h t List.mem_cons_self)]
    dsimp only
    rw [hrest, List.reverse_cons, List.append_assoc, List.singleton_append]

/-! ### What can be taken apart -/

/-- What is read for a push is its length and then as many data. -/
theorem takesOnly_readPush (kind : PushKind) :
  TakesOnly (readPush kind) fun bytes t =>
    ∃ data : Bytes, data.length < 256 ^ kind.lengthWidth ∧ t = .push ⟨kind, data⟩
      ∧ bytes = Bytes.ofNatLE kind.lengthWidth data.length ++ data
  := by
  apply (takesOnly_natLE kind.lengthWidth).bind
  rintro first length ⟨hlength, rfl⟩
  apply (takesOnly_take length).map
  rintro data _ ⟨rfl, rfl⟩
  exact ⟨data, hlength, rfl, rfl⟩

/-- A token is taken from its bytes, and only a readable one. -/
theorem takesOnly_read :
  TakesOnly read fun bytes t => t.Readable ∧ bytes = t.encode
  := by
  apply TakesOnly.get_bind
  intro start
  apply takesOnly_u8.bind
  rintro _ byte rfl
  split
  · next hbyte =>
    rw [UInt8.le_iff_toNat_le, UInt8.le_iff_toNat_le] at hbyte
    apply (takesOnly_take byte.toNat).map
    rintro data _ ⟨rfl, hlength⟩
    have hreadable : (⟨.inline, data⟩ : Push).Readable := by
      constructor
      · apply hlength ▸ hbyte.2
      · rintro _ rfl
        rw [← hlength] at hbyte
        apply absurd hbyte.1 (by decide)
    refine ⟨hreadable, ?_⟩
    rw [encode, Push.encode, Push.heading, hlength, UInt8.ofNat_toNat]
    rfl
  · split
    · exact .throw _
    · next o ho =>
      obtain rfl := Opcode.toByte_of_ofByte? ho
      split
      · next kind hkind =>
        apply (takesOnly_readPush kind).mono
        rintro bytes _ ⟨data, hlength, rfl, rfl⟩
        have hopcode := PushKind.ofOpcode?_eq_some_iff.mp hkind
        have hreadable : (⟨kind, data⟩ : Push).Readable := by
          use (PushKind.lt_pow_lengthWidth_iff hopcode _).mp hlength
          rintro rfl
          cases hopcode
        refine ⟨hreadable, ?_⟩
        rw [encode, Push.encode, Push.heading, hopcode]
        rfl
      · next hkind => exact .pure ⟨hkind, rfl⟩

/-- Tokens are taken up to the end from their bytes. -/
theorem encodeAll_of_readAfter
    {bound : Nat} {done ts : List Token} {cursor cursor' : Cursor}
    (hbound : cursor.rest.length ≤ bound)
    (h : readAfter bound done cursor = .ok ts cursor') :
  ∃ us, ts = done.reverse ++ us ∧ encodeAll us = cursor.rest ∧ ∀ u ∈ us, u.Readable
  := by
  induction bound generalizing done cursor with
  | zero =>
    have hrest : cursor.rest = [] := List.eq_nil_of_length_eq_zero (Nat.le_zero.mp hbound)
    cases h
    exact ⟨[], by simp, by simp [hrest], by simp⟩
  | succ bound ih =>
    by_cases hrest : cursor.rest = []
    · rw [readAfter_of_atEnd _ _ hrest] at h
      cases h
      exact ⟨[], by simp, by simp [hrest], by simp⟩
    · rw [readAfter_of_not_atEnd _ _ hrest] at h
      change EStateM.bind read _ _ = _ at h
      rw [EStateM.bind] at h
      cases hread : read cursor with
      | error e place =>
        rw [hread] at h
        cases h
      | ok t place =>
        rw [hread] at h
        obtain ⟨_, e, hreadable, rfl⟩ := takesOnly_read cursor t place hread
        have hpos : 0 < t.encode.length := List.length_pos_iff.mpr t.encode_ne_nil
        rw [e, List.length_append] at hbound
        obtain ⟨us, rfl, hus, hall⟩ := ih (by omega) h
        use t :: us
        rw [encodeAll_cons, hus, e, List.reverse_cons, List.append_assoc, List.singleton_append]
        exact ⟨rfl, rfl, List.forall_mem_cons.mpr ⟨hreadable, hall⟩⟩

/-- A byte string is taken apart into the readable tokens whose bytes it is. -/
theorem decodeAll_eq_ok_iff {bytes : Bytes} {ts : List Token} :
  decodeAll bytes = .ok ts ↔ encodeAll ts = bytes ∧ ∀ t ∈ ts, t.Readable
  := by
  rw [decodeAll, bind_eq_ok_iff]
  constructor
  · rintro ⟨⟨us, rest⟩, hrun, hus⟩
    cases hus
    rw [runOn] at hrun
    split at hrun
    · next cursor hread =>
      cases hrun
      have hbound : (Cursor.start bytes).rest.length ≤ bytes.length := Nat.le_refl _
      obtain ⟨us, rfl, hus, hall⟩ := encodeAll_of_readAfter hbound hread
      exact ⟨hus, hall⟩
    · cases hrun
  · rintro ⟨rfl, hall⟩
    obtain ⟨place, hread⟩ := readAfter_encodeAll hall (Nat.le_refl _) [] 0
    use (ts, [])
    rw [runOn, Cursor.start, hread]
    exact ⟨rfl, rfl⟩

end Token

/-- The work on a program writes its tokens in order, and leaves the work behind it. -/
theorem Work.run_ofProgram_append (p : Program) (work : List Work) :
  run (ofProgram p ++ work) = Token.encodeAll p.tokens ++ run work
  := by
  induction p generalizing work with
  | done => rfl
  | push p rest ih =>
    change run (.node (.push p) :: (ofProgram rest ++ work)) = _
    rw [run, ih, Program.tokens, Token.encodeAll_cons, List.append_assoc]
    rfl
  | op o rest ih =>
    change run (.node (.op o) :: (ofProgram rest ++ work)) = _
    rw [run, ih, Program.tokens, Token.encodeAll_cons]
    rfl
  | branch c body rest ihBody ih =>
    change run (.node (.branch c body none) :: (ofProgram rest ++ work)) = _
    rw [run, ihBody, run, ih, Program.tokens]
    simp only [Token.encodeAll_cons, Token.encodeAll_append, List.append_assoc]
    rfl
  | branchElse c body alternative rest ihBody ihAlternative ih =>
    change run (.node (.branch c body (some alternative)) :: (ofProgram rest ++ work)) = _
    rw [run, ihBody, run, ihAlternative, run, ih, Program.tokens]
    simp only [Token.encodeAll_cons, Token.encodeAll_append, List.append_assoc]
    rfl

/-- The bytes of a program are those of its tokens. -/
theorem Program.encode_eq (p : Program) :
  p.encode = Token.encodeAll p.tokens
  := by
  have h := Work.run_ofProgram_append p []
  rwa [List.append_nil, Work.run, List.append_nil] at h

end Bitcoin
