import Bitcoin.Proofs.Script.Multisig
import Bitcoin.Script.Address

/-!
# The scripts of standard outputs

An output that pays to the hash of a key or of a script consists of a few opcodes and the push of
the hash. These scripts are without conditionals, and each is recognised by its own form alone.
-/

namespace Bitcoin

/-- The tokens of the script that pays to a key hash. -/
def keyHashTokens (hash : FixedBytes 20) : List Token :=
  [.op .dup, .op .hash160, .push ⟨.inline, hash.toList⟩, .op .equalVerify, .op .checkSig]

/-- The tokens of the script that pays to a script hash. -/
def scriptHashTokens (hash : FixedBytes 20) : List Token :=
  [.op .hash160, .push ⟨.inline, hash.toList⟩, .op .equal]

/-- A hash is pushed with its length in the opcode byte. -/
theorem readable_pushHash (hash : FixedBytes 20) :
  (Token.push ⟨.inline, hash.toList⟩).Readable
  := by
  have hlength : hash.toList.length = 20 := hash.length_eq
  have hcapacity : 20 ≤ PushKind.inline.capacity := by decide
  refine ⟨hlength.trans_le hcapacity, ?_⟩
  intro _ hnil
  have hempty := congrArg List.length hnil
  rw [hlength] at hempty
  cases hempty

theorem encode_pushHash (hash : FixedBytes 20) :
  (Token.push ⟨.inline, hash.toList⟩).encode = 0x14 :: hash.toList
  := by
  rw [Token.encode_inline, hash.length_eq]
  rfl

theorem readable_of_mem_keyHashTokens (hash : FixedBytes 20) :
  ∀ t ∈ keyHashTokens hash, t.Readable
  := by
  simp only [keyHashTokens, List.forall_mem_cons]
  exact ⟨rfl, rfl, readable_pushHash hash, rfl, rfl, List.forall_mem_nil _⟩

theorem readable_of_mem_scriptHashTokens (hash : FixedBytes 20) :
  ∀ t ∈ scriptHashTokens hash, t.Readable
  := by
  simp only [scriptHashTokens, List.forall_mem_cons]
  exact ⟨rfl, readable_pushHash hash, rfl, List.forall_mem_nil _⟩

theorem isDelimiter_of_mem_keyHashTokens (hash : FixedBytes 20) :
  ∀ t ∈ keyHashTokens hash, t.isDelimiter = false
  := by
  simp only [keyHashTokens, List.forall_mem_cons]
  exact ⟨rfl, rfl, rfl, rfl, rfl, List.forall_mem_nil _⟩

theorem isDelimiter_of_mem_scriptHashTokens (hash : FixedBytes 20) :
  ∀ t ∈ scriptHashTokens hash, t.isDelimiter = false
  := by
  simp only [scriptHashTokens, List.forall_mem_cons]
  exact ⟨rfl, rfl, rfl, List.forall_mem_nil _⟩

theorem encodeAll_keyHashTokens (hash : FixedBytes 20) :
  Token.encodeAll (keyHashTokens hash) = (Script.payToKeyHash hash).bytes
  := by
  rw [keyHashTokens, Token.encodeAll_cons, Token.encodeAll_cons, Token.encodeAll_cons,
    encode_pushHash]
  rfl

theorem encodeAll_scriptHashTokens (hash : FixedBytes 20) :
  Token.encodeAll (scriptHashTokens hash) = (Script.payToScriptHash hash).bytes
  := by
  rw [scriptHashTokens, Token.encodeAll_cons, Token.encodeAll_cons, encode_pushHash]
  rfl

/-- The script that pays to the hash of a key has its five tokens. -/
theorem program_payToKeyHash (hash : FixedBytes 20) :
  (Script.payToKeyHash hash).program = .ok (.flat (keyHashTokens hash))
  := by
  rw [← Script.program_encoded_flat (readable_of_mem_keyHashTokens hash)
    (isDelimiter_of_mem_keyHashTokens hash), encodeAll_keyHashTokens]
  rfl

/-- The script that pays to the hash of a script has its three tokens. -/
theorem program_payToScriptHash (hash : FixedBytes 20) :
  (Script.payToScriptHash hash).program = .ok (.flat (scriptHashTokens hash))
  := by
  rw [← Script.program_encoded_flat (readable_of_mem_scriptHashTokens hash)
    (isDelimiter_of_mem_scriptHashTokens hash), encodeAll_scriptHashTokens]
  rfl

/-! ### Paying to a script hash -/

namespace Script

variable {script : Script} {hash : FixedBytes 20}

/-- A hash is found in front of the last bytes. -/
theorem hash?_eq_some_iff {rest back : Bytes} :
  (if rest.drop 20 = back then FixedBytes.ofList? (rest.take 20) else none) = some hash
    ↔ rest = hash.toList ++ back
  := by
  constructor
  · intro h
    split at h
    · next hback =>
      rw [FixedBytes.ofList?_eq_some_iff.mp h, ← hback, List.take_append_drop]
    · cases h
  · rintro rfl
    have hlength : hash.toList.length = 20 := hash.length_eq
    rw [List.drop_left' hlength, if_pos rfl, List.take_left' hlength, FixedBytes.ofList?_toList]

/-- A script hash is found in the bytes of the script that pays to it, and in no others. -/
theorem scriptHash?_eq_some_iff :
  script.scriptHash? = some hash ↔ script.bytes = (payToScriptHash hash).bytes
  := by
  constructor
  · intro h
    rw [scriptHash?] at h
    split at h
    · next rest hbytes =>
      rw [hbytes, hash?_eq_some_iff.mp h]
      rfl
    · cases h
  · intro h
    rw [scriptHash?, h]
    exact hash?_eq_some_iff.mpr rfl

/-- Whatever is recognised as paying to a script hash is run as such, even tokens that cannot be
built. -/
theorem program_of_scriptHash? (h : script.scriptHash? = some hash) :
  script.program = .ok (.flat (scriptHashTokens hash))
  := by
  have hshort : ∀ t ∈ scriptHashTokens hash, t.IsShort ∧ t ≠ .op .zero := by
    simp only [scriptHashTokens, List.forall_mem_cons]
    exact ⟨⟨rfl, by decide⟩, ⟨⟨rfl, readable_pushHash hash⟩, nofun⟩, ⟨rfl, by decide⟩,
      List.forall_mem_nil _⟩
  have hlength : (Token.encodeAll (scriptHashTokens hash)).length ≤ 75 := by
    rw [encodeAll_scriptHashTokens]
    simp [payToScriptHash, bytes]
  apply program_of_bytes hshort hlength (isDelimiter_of_mem_scriptHashTokens hash)
  rw [encodeAll_scriptHashTokens]
  exact scriptHash?_eq_some_iff.mp h

end Script

theorem isPayToScriptHash_payToScriptHash (hash : FixedBytes 20) :
  (Script.payToScriptHash hash).isPayToScriptHash = true
  := Option.isSome_of_eq_some (Script.scriptHash?_eq_some_iff.mpr rfl)

/-! ### Paying to a key hash -/

theorem tokens_payToKeyHash (hash : FixedBytes 20) :
  (Script.payToKeyHash hash).tokens = .ok (keyHashTokens hash)
  := by
  rw [Script.tokens, program_payToKeyHash]
  exact congrArg Except.ok (Program.tokens_flat _)

/-- The script with the tokens of one that pays to a key hash. -/
def keyHashScript (hash : FixedBytes 20) : Script :=
  .assembled (.flat (keyHashTokens hash))

theorem bytes_keyHashScript (hash : FixedBytes 20) :
  (keyHashScript hash).bytes = (Script.payToKeyHash hash).bytes
  := (Script.bytes_flat _).trans (encodeAll_keyHashTokens hash)

theorem tokens_keyHashScript (hash : FixedBytes 20) :
  (keyHashScript hash).tokens = .ok (keyHashTokens hash)
  := congrArg Except.ok (Program.tokens_flat _)

namespace Script

variable {script : Script} {hash : FixedBytes 20}

/-- A key hash is found in the bytes of the script that pays to it, and in no others. -/
theorem keyHash?_eq_some_iff :
  script.keyHash? = some hash ↔ script.bytes = (payToKeyHash hash).bytes
  := by
  constructor
  · intro h
    rw [keyHash?] at h
    split at h
    · next rest hbytes =>
      rw [hbytes, hash?_eq_some_iff.mp h]
      rfl
    · cases h
  · intro h
    rw [keyHash?, h]
    exact hash?_eq_some_iff.mpr rfl

/-- Whatever is recognised as paying to a key hash is run as such, even tokens that cannot be
built. -/
theorem program_of_keyHash? (h : script.keyHash? = some hash) :
  script.program = .ok (.flat (keyHashTokens hash))
  := by
  have hshort : ∀ t ∈ keyHashTokens hash, t.IsShort ∧ t ≠ .op .zero := by
    simp only [keyHashTokens, List.forall_mem_cons]
    exact ⟨⟨rfl, by decide⟩, ⟨rfl, by decide⟩, ⟨⟨rfl, readable_pushHash hash⟩, nofun⟩,
      ⟨rfl, by decide⟩, ⟨rfl, by decide⟩, List.forall_mem_nil _⟩
  have hlength : (Token.encodeAll (keyHashTokens hash)).length ≤ 75 := by
    rw [encodeAll_keyHashTokens]
    simp [payToKeyHash, bytes]
  apply program_of_bytes hshort hlength (isDelimiter_of_mem_keyHashTokens hash)
  rw [encodeAll_keyHashTokens]
  exact keyHash?_eq_some_iff.mp h

/-- The two forms are told apart. -/
theorem isPayToScriptHash_payToKeyHash (hash : FixedBytes 20) :
  (payToKeyHash hash).isPayToScriptHash = false
  := rfl

/-- A demand for signatures ends in another opcode. -/
theorem multisigRedeem?_of_bytes (h : script.bytes = (payToKeyHash hash).bytes) :
  script.multisigRedeem? = none
  := by
  have hreverse : ([0xa9, 0x14] ++ hash.toList ++ [0x88, 0xac] : Bytes).reverse
      = 0xac :: 0x88 :: ([0xa9, 0x14] ++ hash.toList).reverse := List.reverse_append
  have hbytes : script.bytes = 0x76 :: ([0xa9, 0x14] ++ hash.toList ++ [0x88, 0xac]) := h
  rw [multisigRedeem?, hbytes]
  dsimp only
  rw [hreverse]
  rfl

/-- There are no separators that could be stripped. -/
theorem removeOp_payToKeyHash (hash : FixedBytes 20) :
  (payToKeyHash hash).removeOp .codeSeparator = .ok (keyHashScript hash)
  := by
  rw [removeOp, bind_of_eq_ok (tokens_payToKeyHash hash)]
  apply ofTokens_flat (isDelimiter_of_mem_keyHashTokens hash)

/-- Only a push of the hash itself would be removed. -/
theorem removePush_payToKeyHash {data : Bytes} (h : data ≠ hash.toList) :
  (payToKeyHash hash).removePush data = .ok (keyHashScript hash)
  := by
  have hpush : (Token.push ⟨.inline, hash.toList⟩).data? ≠ some data :=
    fun e => h (Option.some.inj e).symm
  apply removePush_of_absent (isDelimiter_of_mem_keyHashTokens hash) _ (tokens_payToKeyHash hash)
  simp only [keyHashTokens, List.forall_mem_cons]
  exact ⟨nofun, nofun, hpush, nofun, nofun, List.forall_mem_nil _⟩

end Script

end Bitcoin
