import Bitcoin.Proofs.Script.Flat
import Bitcoin.Script.Standard

/-!
# Demands for several signatures

A demand for several signatures is written in one way: the number of signatures, the keys
and the number of keys, each by the shortest token (`MultisigRedeem.tokens`). A script is
recognised as a demand exactly if its bytes are those of such tokens, for numbers and keys
that make sense (`Script.multisigRedeem?_eq_some_iff`), and `Script.ofMultisigRedeem`
builds exactly these scripts.
-/

namespace Bitcoin

namespace MultisigRedeem

/-- The tokens of the script that demands signatures. -/
def tokens (redeem : MultisigRedeem) : List Token :=
  .op (Script.countOpcode redeem.required)
    :: (redeem.keys.map (fun key => .push ⟨.inline, key⟩)
      ++ [.op (Script.countOpcode redeem.keys.length), .op .checkMultisig])

/-- Whether a script can demand the signatures. -/
structure Valid (redeem : MultisigRedeem) : Prop where
  required_pos : 0 < redeem.required
  required_le : redeem.required ≤ redeem.keys.length
  keys_le : redeem.keys.length ≤ 16
  keyForm : ∀ key ∈ redeem.keys, PublicKey.hasKeyForm key = true

end MultisigRedeem

/-! ### Keys and numbers -/

/-- Keys have one of two lengths. -/
theorem PublicKey.length_of_hasKeyForm {key : Bytes} (h : hasKeyForm key = true) :
  key.length = 33 ∨ key.length = 65
  := by
  cases key with
  | nil => cases h
  | cons header rest =>
    rw [hasKeyForm, Bool.or_eq_true, Bool.and_eq_true, Bool.and_eq_true, beq_iff_eq, beq_iff_eq,
      beq_iff_eq] at h
    rw [List.length_cons]
    omega

/-- Keys can be pushed with their length in the opcode byte. -/
theorem PublicKey.readable_of_hasKeyForm {key : Bytes} (h : hasKeyForm key = true) :
  (⟨.inline, key⟩ : Push).Readable
  := by
  have hlength := length_of_hasKeyForm h
  constructor
  · change key.length ≤ 75
    omega
  · rintro _ rfl
    cases h

namespace Script

/-- The opcodes of counts follow each other. -/
theorem toByte_countOpcode {n : Nat} (hpos : 0 < n) (hle : n ≤ 16) :
  (countOpcode n).toByte = UInt8.ofNat (0x50 + n)
  := by
  have h : ∀ k : Fin 16, (countOpcode (k.val + 1)).toByte
      = UInt8.ofNat (0x50 + (k.val + 1)) := by decide
  have e : n - 1 + 1 = n := by omega
  have hn := h ⟨n - 1, by omega⟩
  rwa [e] at hn

/-- A byte counts up to sixteen. -/
theorem countOfByte?_eq_some_iff {byte : UInt8} {n : Nat} :
  countOfByte? byte = some n ↔ 0 < n ∧ n ≤ 16 ∧ byte = (countOpcode n).toByte
  := by
  constructor
  · intro h
    obtain ⟨op, hop, hpushed⟩ := Option.bind_eq_some_iff.mp h
    obtain ⟨count, hcount, hguard⟩ := Option.bind_eq_some_iff.mp hpushed
    obtain rfl := Opcode.toByte_of_ofByte? hop
    split at hguard
    · next hpos =>
      cases hguard
      rw [Opcode.smallInt?] at hcount
      split at hcount
      · cases hcount
        cases hpos
      · split at hcount
        · next hrange =>
          rw [UInt8.le_iff_toNat_le, UInt8.le_iff_toNat_le] at hrange
          obtain ⟨hlow, hhigh⟩ := hrange
          change 0x51 ≤ op.toByte.toNat at hlow
          change op.toByte.toNat ≤ 0x60 at hhigh
          cases hcount
          have hle : op.toByte.toNat - 0x50 ≤ 16 := by omega
          refine ⟨hpos, hle, ?_⟩
          rw [toByte_countOpcode hpos hle]
          apply UInt8.toNat_inj.mp
          rw [UInt8.toNat_ofNat']
          omega
        · cases hcount
    · cases hguard
  · rintro ⟨hpos, hle, rfl⟩
    have h : ∀ k : Fin 16, countOfByte? (countOpcode (k.val + 1)).toByte = some (k.val + 1) := by
      decide
    have e : n - 1 + 1 = n := by omega
    have hn := h ⟨n - 1, by omega⟩
    rwa [e] at hn

/-- The bytes of keys, each behind its length. -/
theorem encodeAll_inline (keys : List Bytes) :
  Token.encodeAll (keys.map fun key => .push ⟨.inline, key⟩)
    = keys.flatMap fun key => UInt8.ofNat key.length :: key
  := by
  rw [Token.encodeAll, List.flatMap_map]
  rfl

theorem takes_readKey {key : Bytes} (h : key.length < 256) :
  Reader.Takes readKey (UInt8.ofNat key.length :: key) key
  := by
  have hlength : (UInt8.ofNat key.length).toNat = key.length := by
    rw [UInt8.toNat_ofNat']
    apply Nat.mod_eq_of_lt h
  apply (Reader.takes_u8 (UInt8.ofNat key.length)).bind
  rw [hlength]
  apply Reader.takes_take key

/-- A key is read with the length in front of it. -/
theorem takesOnly_readKey :
  Reader.TakesOnly readKey fun bytes key => bytes = UInt8.ofNat key.length :: key ∧ True
  := by
  apply Reader.takesOnly_u8.bind
  rintro _ byte rfl
  apply (Reader.takesOnly_take byte.toNat).mono
  rintro _ key ⟨rfl, hlength⟩
  rw [hlength, UInt8.ofNat_toNat]
  exact ⟨rfl, trivial⟩

/-- Keys are read from bytes exactly if these are the keys behind their lengths. -/
theorem keysOfBytes?_eq_some_iff {count : Nat} {bytes : Bytes} {keys : List Bytes} :
  keysOfBytes? count bytes = some keys
    ↔ keys.length = count ∧ (∀ key ∈ keys, PublicKey.hasKeyForm key = true)
      ∧ bytes = Token.encodeAll (keys.map fun key => .push ⟨.inline, key⟩)
  := by
  rw [encodeAll_inline]
  constructor
  · intro h
    rw [keysOfBytes?] at h
    split at h
    · next found hrun =>
      split at h
      · next hforms =>
        cases h
        obtain ⟨taken, rfl, hlength, rfl, _⟩ :=
          (Reader.takesOnly_many_of_encode takesOnly_readKey count).runOn hrun
        exact ⟨hlength, List.all_eq_true.mp hforms, List.append_nil _⟩
      · cases h
    · cases h
  · rintro ⟨rfl, hforms, rfl⟩
    have hread : Reader.Takes (Reader.many keys.length readKey)
        (keys.flatMap fun key => UInt8.ofNat key.length :: key) (keys.map id) := by
      apply Reader.takes_many
      intro key hkey
      apply takes_readKey
      have hlength := PublicKey.length_of_hasKeyForm (hforms key hkey)
      omega
    have hrun := hread.runOn []
    rw [List.append_nil, List.map_id] at hrun
    rw [keysOfBytes?, hrun]
    apply if_pos (List.all_eq_true.mpr hforms)

/-- The bytes of a demand: its numbers, the keys between them, and the opcode. -/
theorem encodeAll_redeemTokens (redeem : MultisigRedeem) :
  Token.encodeAll redeem.tokens
    = (countOpcode redeem.required).toByte
      :: (Token.encodeAll (redeem.keys.map fun key => .push ⟨.inline, key⟩)
        ++ [(countOpcode redeem.keys.length).toByte, Opcode.checkMultisig.toByte])
  := by
  rw [MultisigRedeem.tokens, Token.encodeAll_cons, Token.encodeAll_append]
  rfl

/-- A script is a demand exactly if its bytes are those of the tokens of a valid one. -/
theorem multisigRedeem?_eq_some_iff {script : Script} {redeem : MultisigRedeem} :
  script.multisigRedeem? = some redeem
    ↔ redeem.Valid ∧ script.bytes = Token.encodeAll redeem.tokens
  := by
  rw [encodeAll_redeemTokens]
  constructor
  · intro h
    rw [multisigRedeem?] at h
    split at h
    · cases h
    · next first rest hbytes =>
      split at h
      · next last count inner hrest =>
        split at h
        · cases h
        · next hlast =>
          obtain ⟨required, hrequired, h⟩ := Option.bind_eq_some_iff.mp h
          obtain ⟨total, htotal, h⟩ := Option.bind_eq_some_iff.mp h
          split at h
          · cases h
          · next hle =>
            obtain ⟨keys, hkeys, h⟩ := Option.bind_eq_some_iff.mp h
            cases h
            obtain ⟨hpos, _, rfl⟩ := countOfByte?_eq_some_iff.mp hrequired
            obtain ⟨_, hmax, rfl⟩ := countOfByte?_eq_some_iff.mp htotal
            obtain ⟨rfl, hforms, hinner⟩ := keysOfBytes?_eq_some_iff.mp hkeys
            refine ⟨⟨hpos, Nat.le_of_not_gt hle, hmax, hforms⟩, ?_⟩
            have e : rest = inner.reverse ++ [(countOpcode keys.length).toByte, last] := by
              rw [← List.reverse_reverse rest, hrest]
              simp
            rw [hbytes, e, hinner, Decidable.not_not.mp hlast]
      · cases h
  · rintro ⟨hvalid, hbytes⟩
    have hrequired : countOfByte? (countOpcode redeem.required).toByte = some redeem.required :=
      countOfByte?_eq_some_iff.mpr
        ⟨hvalid.required_pos, le_trans hvalid.required_le hvalid.keys_le, rfl⟩
    have htotal : countOfByte? (countOpcode redeem.keys.length).toByte
        = some redeem.keys.length :=
      countOfByte?_eq_some_iff.mpr
        ⟨lt_of_lt_of_le hvalid.required_pos hvalid.required_le, hvalid.keys_le, rfl⟩
    have hkeys := keysOfBytes?_eq_some_iff.mpr ⟨rfl, hvalid.keyForm, rfl⟩
    have hreverse : ∀ (inner : Bytes) (count last : UInt8),
        (inner ++ [count, last]).reverse = last :: count :: inner.reverse := by simp
    rw [multisigRedeem?, hbytes]
    dsimp only
    rw [hreverse]
    change (if _ then _ else _ : Option MultisigRedeem) = _
    rw [if_neg (by simp), hrequired, htotal]
    change (if _ then _ else _ : Option MultisigRedeem) = _
    rw [if_neg (Nat.not_lt.mpr hvalid.required_le), List.reverse_reverse, hkeys]
    rfl

end Script

/-! ### The tokens of a demand -/

theorem Script.countOpcode_of_lt {n : Nat} (h : 16 < n) :
  countOpcode n = .zero
  := by
  rw [countOpcode, Opcode.ofSmallInt?, if_neg (by omega), if_neg (by omega)]
  rfl

/-- The opcodes of numbers introduce no data and give no structure. -/
theorem Script.countOpcode_plain (n : Nat) :
  PushKind.ofOpcode? (countOpcode n) = none ∧ (countOpcode n).isDelimiter = false
    ∧ countOpcode n ≠ .codeSeparator
  := by
  by_cases h : n ≤ 16
  · have hplain : ∀ k : Fin 17, PushKind.ofOpcode? (countOpcode k.val) = none
        ∧ (countOpcode k.val).isDelimiter = false ∧ countOpcode k.val ≠ .codeSeparator := by
      decide
    apply hplain ⟨n, by omega⟩
  · rw [countOpcode_of_lt (by omega)]
    decide

namespace MultisigRedeem

variable {redeem : MultisigRedeem}

/-- What holds of the opcodes and of the keys holds of every token. -/
theorem forall_mem_tokens {good : Token → Prop} (hcount : ∀ n, good (.op (Script.countOpcode n)))
    (hkey : ∀ key ∈ redeem.keys, good (.push ⟨.inline, key⟩)) (hop : good (.op .checkMultisig)) :
  ∀ t ∈ redeem.tokens, good t
  := by
  intro t ht
  rcases List.mem_cons.mp ht with rfl | ht
  · apply hcount _
  rcases List.mem_append.mp ht with ht | ht
  · obtain ⟨key, hmem, rfl⟩ := List.mem_map.mp ht
    apply hkey key hmem
  · rcases List.mem_cons.mp ht with rfl | ht
    · apply hcount _
    · rw [List.mem_singleton.mp ht]
      apply hop

theorem isDelimiter_of_mem_tokens :
  ∀ t ∈ redeem.tokens, t.isDelimiter = false
  := forall_mem_tokens (fun n => (Script.countOpcode_plain n).2.1) (fun _ _ => rfl) rfl

/-- There are no separators in a demand. -/
theorem opcode?_ne_codeSeparator_of_mem_tokens :
  ∀ t ∈ redeem.tokens, t.opcode? ≠ some .codeSeparator
  := by
  apply forall_mem_tokens
  · exact fun n h => (Script.countOpcode_plain n).2.2 (Option.some.inj h)
  · rintro key _ ⟨⟩
  · decide

/-- All tokens of a demand are short, so that its bytes can be read. -/
theorem Valid.isShort_of_mem_tokens (h : redeem.Valid) :
  ∀ t ∈ redeem.tokens, t.IsShort
  := by
  apply forall_mem_tokens
  · exact fun n => (Script.countOpcode_plain n).1
  · exact fun key hkey => ⟨rfl, PublicKey.readable_of_hasKeyForm (h.keyForm key hkey)⟩
  · rfl

end MultisigRedeem

namespace Script

/-- A built script that is recognised as a demand has the tokens of the demand. -/
theorem WellFormed.tokens_of_multisigRedeem?
    {script : Script} (h : script.WellFormed) {redeem : MultisigRedeem}
    (hredeem : script.multisigRedeem? = some redeem) :
  script.tokens = .ok redeem.tokens
  := by
  obtain ⟨hvalid, hbytes⟩ := multisigRedeem?_eq_some_iff.mp hredeem
  apply h.tokens_of_bytes hvalid.isShort_of_mem_tokens MultisigRedeem.isDelimiter_of_mem_tokens
    hbytes

/-- There is nothing to strip from a demand. -/
theorem WellFormed.removeOp_codeSeparator_of_multisigRedeem?
    {script : Script} (h : script.WellFormed) {redeem : MultisigRedeem}
    (hredeem : script.multisigRedeem? = some redeem) :
  script.removeOp .codeSeparator = .ok (.assembled (.flat redeem.tokens))
  := by
  have hfilter : redeem.tokens.filter (fun t => t.opcode? ≠ some .codeSeparator)
      = redeem.tokens := by
    apply List.filter_eq_self.mpr
    exact fun t ht => decide_eq_true (MultisigRedeem.opcode?_ne_codeSeparator_of_mem_tokens t ht)
  rw [removeOp, bind_of_eq_ok (h.tokens_of_multisigRedeem? hredeem), hfilter]
  apply ofTokens_flat MultisigRedeem.isDelimiter_of_mem_tokens

/-- A script without conditionals has the bytes of its tokens. -/
theorem bytes_flat (ts : List Token) :
  (assembled (.flat ts)).bytes = Token.encodeAll ts
  := by
  rw [bytes, Program.encode_eq, Program.tokens_flat]

/-- A key is pushed with its length in the opcode byte. -/
theorem keyToken_eq_ok_iff {key : Bytes} {t : Token} :
  keyToken key = .ok t ↔ PublicKey.hasKeyForm key = true ∧ t = .push ⟨.inline, key⟩
  := by
  cases hform : PublicKey.hasKeyForm key with
  | false =>
    rw [keyToken, hform]
    constructor
    · rintro ⟨⟩
    · rintro ⟨⟨⟩, _⟩
  | true =>
    have hlength := PublicKey.length_of_hasKeyForm hform
    have hkind : PushKind.smallest key.length = .inline := if_pos (by omega)
    have hne : key.isEmpty = false := by
      cases key with
      | nil => cases hform
      | cons _ _ => rfl
    have e : keyToken key = .ok (.push ⟨.inline, key⟩) := by
      rw [keyToken, hform, if_pos rfl, Token.ofData, Push.ofData, hne, hkind]
      rfl
    rw [e]
    constructor
    · rintro ⟨⟩
      exact ⟨rfl, rfl⟩
    · rintro ⟨_, rfl⟩
      rfl

/-- A demand is built exactly if it is valid. -/
theorem ofMultisigRedeem_eq_ok_iff {required : Nat} {keys : List Bytes} {script : Script} :
  ofMultisigRedeem required keys = .ok script
    ↔ (MultisigRedeem.mk required keys).Valid
      ∧ script = .assembled (.flat (MultisigRedeem.mk required keys).tokens)
  := by
  have hkeys := @mapM_eq_ok_iff_of_forall _ _ _ keyToken _ _ (fun _ _ => keyToken_eq_ok_iff) keys
  have hbuilt := ofTokens_flat
    (@MultisigRedeem.isDelimiter_of_mem_tokens (MultisigRedeem.mk required keys))
  rw [ofMultisigRedeem]
  split
  · next h =>
    constructor
    · rintro ⟨⟩
    · rintro ⟨⟨hpos, hle, hmax, _⟩, _⟩
      rcases h with rfl | h | h
      · cases hpos
      · apply absurd hle (Nat.not_le.mpr h)
      · apply absurd hmax (Nat.not_le.mpr h)
  · next h =>
    push Not at h
    obtain ⟨hpos, hle, hmax⟩ := h
    rw [bind_eq_ok_iff]
    constructor
    · rintro ⟨ts, hts, hscript⟩
      obtain ⟨hforms, rfl⟩ := hkeys.mp hts
      exact ⟨⟨Nat.pos_of_ne_zero hpos, hle, hmax, hforms⟩,
        Except.ok.inj (hscript.symm.trans hbuilt)⟩
    · rintro ⟨hvalid, rfl⟩
      exact ⟨_, hkeys.mpr ⟨hvalid.keyForm, rfl⟩, hbuilt⟩

end Script

end Bitcoin
