import Bitcoin.Proofs.Script.Coherence
import Bitcoin.Proofs.Script.Supply

/-!
# Built scripts are recognised

A demand for several signatures is recognised in a byte string exactly if the script that is built
for it has these bytes, so that what can be built and what can be recognised are the same
(`Script.multisigRedeem_iff_built`).

A supply of signatures is built for a demand exactly if there are no more signatures than keys and
none is empty. The signatures and the demand are then recognised in the supply and in its bytes,
whatever forms of push their lengths need (`Script.multisigSignatures_of_built`).
-/

namespace Bitcoin

namespace Script

/-! ### Demands -/

theorem multisigRedeem_eq_ok_iff {script : Script} {redeem : MultisigRedeem} :
  script.multisigRedeem = .ok redeem ↔ script.multisigRedeem? = some redeem
  := by
  rw [multisigRedeem]
  cases script.multisigRedeem? with
  | none => simp
  | some found => simp

/-- The bytes of a demand are taken apart into its tokens. -/
theorem tokens_encoded_of_multisigRedeem {bytes : Bytes} {redeem : MultisigRedeem}
    (h : (encoded bytes).multisigRedeem = .ok redeem) :
  (encoded bytes).tokens = .ok redeem.tokens
  := by
  have hwf : (encoded bytes).WellFormed := trivial
  apply hwf.tokens_of_multisigRedeem? (multisigRedeem_eq_ok_iff.mp h)

/-- The last byte but one is the number of the keys. -/
theorem countOfByte?_of_multisigRedeem {bytes : Bytes} {redeem : MultisigRedeem}
    (h : (encoded bytes).multisigRedeem = .ok redeem) :
  ∃ count, bytes[bytes.length - 2]? = some count ∧ countOfByte? count = some redeem.keys.length
  := by
  obtain ⟨hvalid, hbytes⟩ := multisigRedeem?_eq_some_iff.mp (multisigRedeem_eq_ok_iff.mp h)
  have hbytes : bytes = Token.encodeAll redeem.tokens := hbytes
  have hpos := lt_of_lt_of_le hvalid.required_pos hvalid.required_le
  refine ⟨_, ?_, countOfByte?_eq_some_iff.mpr ⟨hpos, hvalid.keys_le, rfl⟩⟩
  rw [hbytes, encodeAll_redeemTokens, ← List.cons_append, List.length_append]
  simp

/-- A demand is built to the bytes in which it is recognised. -/
theorem multisigRedeem_encoded_iff {bytes : Bytes} {required : Nat} {keys : List Bytes} :
  (encoded bytes).multisigRedeem = .ok ⟨required, keys⟩
    ↔ ∃ script, ofMultisigRedeem required keys = .ok script ∧ script.bytes = bytes
  := by
  rw [multisigRedeem_eq_ok_iff, multisigRedeem?_eq_some_iff]
  constructor
  · rintro ⟨hvalid, hbytes⟩
    exact ⟨_, ofMultisigRedeem_eq_ok_iff.mpr ⟨hvalid, rfl⟩, (bytes_flat _).trans hbytes.symm⟩
  · rintro ⟨script, hscript, rfl⟩
    obtain ⟨hvalid, rfl⟩ := ofMultisigRedeem_eq_ok_iff.mp hscript
    exact ⟨hvalid, bytes_flat _⟩

/-- Byte strings in which a demand is recognised are the bytes of the script that is built for it.
They are taken apart into the tokens of the demand, and the number in front of the last opcode is
that of its keys. No demand is recognised anywhere that cannot be built. -/
theorem multisigRedeem_iff_built :
  (∀ (bytes : Bytes) (required : Nat) (keys : List Bytes),
      (encoded bytes).multisigRedeem = .ok ⟨required, keys⟩
        ↔ ∃ script, ofMultisigRedeem required keys = .ok script ∧ script.bytes = bytes)
    ∧ (∀ (bytes : Bytes) (redeem : MultisigRedeem), (encoded bytes).multisigRedeem = .ok redeem →
      (encoded bytes).tokens = .ok redeem.tokens
      ∧ ∃ count, bytes[bytes.length - 2]? = some count
        ∧ countOfByte? count = some redeem.keys.length)
    ∧ ∀ (required : Nat) (keys : List Bytes),
      (∃ e, ofMultisigRedeem required keys = .error e)
        ↔ ∀ script : Script, script.multisigRedeem ≠ .ok ⟨required, keys⟩
  := by
  refine ⟨fun _ _ _ => multisigRedeem_encoded_iff, fun _ _ h => ?_, fun required keys => ?_⟩
  · exact ⟨tokens_encoded_of_multisigRedeem h, countOfByte?_of_multisigRedeem h⟩
  · rw [exists_eq_error_iff]
    constructor
    · intro hrefused script h
      have hencoded : (encoded script.bytes).multisigRedeem = .ok ⟨required, keys⟩ := h
      obtain ⟨built, hbuilt, _⟩ := multisigRedeem_encoded_iff.mp hencoded
      exact hrefused ⟨built, hbuilt⟩
    · rintro hnowhere ⟨script, hscript⟩
      exact hnowhere _ (multisigRedeem_encoded_iff.mpr ⟨script, hscript, rfl⟩)

/-- One key that demands its signature. -/
theorem multisigRedeem_iff_built_single :
  let key : Bytes := 0x02 :: List.replicate 32 0x07
  let bytes : Bytes := [0x51, 0x21] ++ key ++ [0x51, 0xae]
  (encoded bytes).multisigRedeem = .ok ⟨1, [key]⟩
    ∧ (∃ script, ofMultisigRedeem 1 [key] = .ok script ∧ script.bytes = bytes)
    ∧ (encoded bytes).tokens = .ok [.op .one, .push ⟨.inline, key⟩, .op .one, .op .checkMultisig]
    ∧ ∀ script : Script, script.multisigRedeem ≠ .ok ⟨2, [key]⟩
  := by
  intro key bytes
  obtain ⟨hbuilt, htokens, hrefused⟩ := multisigRedeem_iff_built
  have hfound : (encoded bytes).multisigRedeem = .ok ⟨1, [key]⟩ := by decide
  have hscript := (hbuilt bytes 1 [key]).mp hfound
  exact ⟨hfound, hscript, (htokens bytes _ hfound).1, (hrefused 2 [key]).mp ⟨_, rfl⟩⟩

/-! ### Supplies -/

theorem multisigSignatures_eq_ok_iff {script : Script} {found : MultisigSignatures} :
  script.multisigSignatures = .ok found ↔ script.multisigSignatures? = some found
  := by
  rw [multisigSignatures]
  cases script.multisigSignatures? with
  | none => simp
  | some found => simp

/-- The keys of a demand have few bytes. -/
theorem length_encodeAll_inline_le {keys : List Bytes}
    (h : ∀ key ∈ keys, PublicKey.hasKeyForm key = true) :
  (Token.encodeAll (keys.map fun key => .push ⟨.inline, key⟩)).length ≤ 66 * keys.length
  := by
  induction keys with
  | nil => apply Nat.le_refl
  | cons key keys ih =>
    obtain ⟨hkey, hkeys⟩ := List.forall_mem_cons.mp h
    have hlength := PublicKey.length_of_hasKeyForm hkey
    rw [List.map_cons, Token.encodeAll_cons, Token.encode_inline, List.length_append,
      List.length_cons, List.length_cons]
    have hrest := ih hkeys
    omega

/-- A demand can be pushed. -/
theorem length_bytes_of_multisigRedeem {redeem : Script} {demand : MultisigRedeem}
    (h : redeem.multisigRedeem = .ok demand) :
  redeem.bytes ≠ [] ∧ redeem.bytes.length < 2 ^ 32
  := by
  obtain ⟨hvalid, hbytes⟩ := multisigRedeem?_eq_some_iff.mp (multisigRedeem_eq_ok_iff.mp h)
  have hkeys := length_encodeAll_inline_le hvalid.keyForm
  have hmax := hvalid.keys_le
  rw [hbytes, encodeAll_redeemTokens, List.length_cons, List.length_append]
  constructor
  · apply List.cons_ne_nil
  · change _ + 2 + 1 < _
    omega

/-- The smallest push for data that are not too long can be read. -/
theorem readable_shortest {data : Bytes} (hne : data ≠ []) (hshort : data.length < 2 ^ 32) :
  (Token.push (.shortest data)).Readable
  := by
  have hofData : Push.ofData data = .ok (.shortest data) := by
    rw [Push.ofData, List.isEmpty_eq_false_iff.mpr hne]
    rfl
  have hwf : (Token.push (.shortest data)).WellFormed := Push.wellFormed_of_ofData hofData
  apply hwf.readable
  rintro _ ⟨⟩
  apply hshort

/-- The tokens of a supply can be read from their bytes. -/
theorem readable_of_mem_supplyTokens {supply : MultisigSignatures}
    (hne : ∀ data ∈ supply.signatures, data ≠ [])
    (hshort : ∀ data ∈ supply.signatures, data.length < 2 ^ 32) {demand : MultisigRedeem}
    (hdemand : supply.redeem.multisigRedeem = .ok demand) :
  ∀ t ∈ supply.tokens, t.Readable
  := by
  intro t ht
  rcases List.mem_cons.mp ht with rfl | ht
  · rfl
  rcases List.mem_append.mp ht with ht | ht
  · obtain ⟨data, hdata, rfl⟩ := List.mem_map.mp ht
    apply readable_shortest (hne data hdata) (hshort data hdata)
  · obtain ⟨hredeem, hlength⟩ := length_bytes_of_multisigRedeem hdemand
    rw [List.mem_singleton.mp ht]
    apply readable_shortest hredeem hlength

/-- A coherent script supplies what its bytes supply. -/
theorem Coherent.multisigSignatures_encoded {script : Script} (h : script.Coherent) :
  (encoded script.bytes).multisigSignatures = script.multisigSignatures
  := by
  rw [multisigSignatures, multisigSignatures, multisigSignatures?, multisigSignatures?, tokens,
    tokens, h]

/-- A supply for a demand is built exactly if there are no more signatures than keys and none is
empty. Then the signatures and the demand are recognised in it and in its bytes. -/
theorem multisigSignatures_of_built {redeem : Script} {demand : MultisigRedeem}
    (hdemand : redeem.multisigRedeem = .ok demand) {signatures : List Bytes}
    (hshort : ∀ signature ∈ signatures, signature.length < 2 ^ 32) :
  ((∃ script, ofMultisigSignatures signatures redeem = .ok script)
      ↔ signatures.length ≤ demand.keys.length ∧ ∀ signature ∈ signatures, signature ≠ [])
    ∧ ∀ script, ofMultisigSignatures signatures redeem = .ok script →
      script.multisigSignatures = .ok ⟨signatures, .encoded redeem.bytes⟩
      ∧ (encoded script.bytes).multisigSignatures = .ok ⟨signatures, .encoded redeem.bytes⟩
  := by
  have hfound := multisigRedeem_eq_ok_iff.mp hdemand
  constructor
  · constructor
    · rintro ⟨script, hscript⟩
      obtain ⟨⟨found, hfound', hle⟩, hne, _⟩ := ofMultisigSignatures_eq_ok_iff.mp hscript
      obtain rfl : found = demand := Option.some.inj (hfound'.symm.trans hfound)
      exact ⟨hle, hne⟩
    · rintro ⟨hle, hne⟩
      exact ⟨_, ofMultisigSignatures_eq_ok_iff.mpr ⟨⟨demand, hfound, hle⟩, hne, rfl⟩⟩
  · intro script hscript
    obtain ⟨_, hne, rfl⟩ := ofMultisigSignatures_eq_ok_iff.mp hscript
    let supply : MultisigSignatures := ⟨signatures, redeem⟩
    have hcoherent : (assembled (.flat supply.tokens)).Coherent :=
      (coherent_of_ofTokens_iff (ofTokens_flat supply.isDelimiter_of_mem_tokens)).mpr
        (readable_of_mem_supplyTokens hne hshort hdemand)
    have hread : (assembled (.flat supply.tokens)).multisigSignatures
        = .ok ⟨signatures, .encoded redeem.bytes⟩ := by
      apply multisigSignatures_eq_ok_iff.mpr
      apply @multisigSignatures?_flat_tokens supply
      rw [isMultisigRedeem, hfound]
      rfl
    exact ⟨hread, hcoherent.multisigSignatures_encoded.trans hread⟩

/-- Signatures whose lengths are written in the opcode byte, in one byte and in two bytes, and a
demand of which the length is written in one byte. -/
theorem multisigSignatures_of_built_long :
  let key : Bytes := 0x02 :: List.replicate 32 0x07
  let redeem := encoded (Token.encodeAll (MultisigRedeem.mk 2 [key, key, key]).tokens)
  let signatures := [[0x00], List.replicate 76 0xab, List.replicate 256 0xac]
  redeem.multisigRedeem = .ok ⟨2, [key, key, key]⟩
    ∧ (∀ signature ∈ signatures, signature.length < 2 ^ 32)
    ∧ ∃ script, ofMultisigSignatures signatures redeem = .ok script
      ∧ (encoded script.bytes).multisigSignatures = .ok ⟨signatures, redeem⟩
  := by
  intro key redeem signatures
  have hvalid : (MultisigRedeem.mk 2 [key, key, key]).Valid :=
    ⟨by decide, by decide, by decide, by decide⟩
  have hdemand : redeem.multisigRedeem = .ok ⟨2, [key, key, key]⟩ :=
    multisigRedeem_eq_ok_iff.mpr (multisigRedeem?_eq_some_iff.mpr ⟨hvalid, rfl⟩)
  have hshort : ∀ signature ∈ signatures, signature.length < 2 ^ 32 := by decide +kernel
  obtain ⟨hbuilt, hread⟩ := multisigSignatures_of_built hdemand hshort
  obtain ⟨script, hscript⟩ := hbuilt.mpr ⟨by decide, by decide +kernel⟩
  exact ⟨hdemand, hshort, script, hscript, (hread script hscript).2⟩

end Script

end Bitcoin
