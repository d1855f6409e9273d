import Bitcoin.Proofs.Script.Supply
import Bitcoin.Proofs.Transaction.Commitment
import Bitcoin.Proofs.Transaction.Slots

/-!
# Merging a signature

Signing an input for a script that demands several signatures takes the signatures that the
input already has, adds the new one, and writes all of them in the order of their keys.
-/

namespace Bitcoin

namespace Transaction

variable {tx tx' : Transaction} {index : Nat} {hashType : HashType} {key : PrivateKey}
  {subScript : Script} {redeem : MultisigRedeem}

/-- A digest depends on the tokens of the script alone. -/
theorem digest_congr {s s' : Script} (h : s.tokens = s'.tokens) :
  tx.digest index hashType s = tx.digest index hashType s'
  := by
  rw [digest, digest, Script.removeOp, Script.removeOp, h]

/-- The cosigner that a public key is, in either of its forms. -/
def cosigner? (redeem : MultisigRedeem) (key : PublicKey) : Option Nat :=
  redeem.keys.findIdx? fun k => k == key.toBytes false || k == key.toBytes true

/-- The script with the tokens of a demand. -/
def demandScript (redeem : MultisigRedeem) : Script :=
  .assembled (.flat redeem.tokens)

/-- The script of a demand is recognised as this demand. -/
theorem multisigRedeem?_demandScript (h : redeem.Valid) :
  (demandScript redeem).multisigRedeem? = some redeem
  := Script.multisigRedeem?_eq_some_iff.mpr ⟨h, Script.bytes_flat _⟩

theorem isMultisigRedeem_demandScript (h : redeem.Valid) :
  (demandScript redeem).isMultisigRedeem = true
  := Option.isSome_of_eq_some (multisigRedeem?_demandScript h)

/-- The script of a demand can be built. -/
theorem wellFormed_demandScript (h : redeem.Valid) :
  (demandScript redeem).WellFormed
  := by
  refine ⟨Program.nested_flat MultisigRedeem.isDelimiter_of_mem_tokens _, ?_⟩
  intro p hp
  rw [Program.tokens_flat] at hp
  exact .inr (h.isShort_of_mem_tokens _ hp).readable

/-- The script of a demand has no separators that could be stripped. -/
theorem removeOp_demandScript (h : redeem.Valid) :
  (demandScript redeem).removeOp .codeSeparator = .ok (demandScript redeem)
  := (wellFormed_demandScript h).removeOp_codeSeparator_of_multisigRedeem?
    (multisigRedeem?_demandScript h)

theorem tokens_demandScript (redeem : MultisigRedeem) :
  (demandScript redeem).tokens = .ok redeem.tokens
  := congrArg Except.ok (Program.tokens_flat redeem.tokens)

/-- A key takes part in a demand as one of the cosigners, or not at all. -/
theorem roleIn_demandScript (h : redeem.Valid) (key : PublicKey) :
  roleIn key (demandScript redeem)
    = match cosigner? redeem key with
      | some cosigner => .ok (.cosigner redeem cosigner)
      | none => .error (.signing .keyNotInScript)
  := by
  rw [roleIn, multisigRedeem?_demandScript h]
  rfl

/-- The only role that a key can have in a demand is that of a cosigner. -/
theorem roleIn_demandScript_eq_ok_iff (h : redeem.Valid) {key : PublicKey} {role : Role} :
  roleIn key (demandScript redeem) = .ok role
    ↔ ∃ cosigner, cosigner? redeem key = some cosigner ∧ role = .cosigner redeem cosigner
  := by
  rw [roleIn_demandScript h]
  cases cosigner? redeem key with
  | none =>
    constructor
    · rintro ⟨⟩
    · rintro ⟨_, ⟨⟩, _⟩
  | some cosigner =>
    constructor
    · rintro ⟨⟩
      exact ⟨cosigner, rfl, rfl⟩
    · rintro ⟨_, ⟨⟩, rfl⟩
      rfl

/-- What signing for a demand does, step by step. -/
theorem signedScript_eq_ok_iff (hwf : subScript.WellFormed)
    (hredeem : subScript.multisigRedeem? = some redeem) {script : Script} :
  tx.signedScript index hashType key subScript = .ok script
    ↔ index < tx.inputs.length ∧ hashType < 0x100
      ∧ ∃ cosigner digest signature, cosigner? redeem key.publicKey = some cosigner
        ∧ tx.digest index hashType subScript = .ok digest
        ∧ key.signDigest digest.toList = .ok signature
        ∧ mergeSignature ((tx.inputs[index]?.map (·.script)).getD Script.empty)
          (demandScript redeem) redeem cosigner signature digest hashType.toUInt8 = .ok script
  := by
  have hvalid := (Script.multisigRedeem?_eq_some_iff.mp hredeem).1
  have hdemand : subScript.isMultisigRedeem = true := Option.isSome_of_eq_some hredeem
  have hstripped : subScript.removeOp .codeSeparator = .ok (demandScript redeem) :=
    hwf.removeOp_codeSeparator_of_multisigRedeem? hredeem
  have hdigest : tx.digest index hashType (demandScript redeem)
      = tx.digest index hashType subScript := by
    apply digest_congr
    rw [tokens_demandScript, hwf.tokens_of_multisigRedeem? hredeem]
  rw [signedScript, checkInput, hdemand]
  split
  · next hindex =>
    rw [bind_of_eq_ok rfl, and_iff_right hindex]
    split
    · next htype =>
      constructor
      · rintro ⟨⟩
      · exact fun h => absurd h.1 (UInt32.not_lt.mpr htype)
    · next htype =>
      rw [and_iff_right (UInt32.not_le.mp htype), if_neg (by simp), bind_of_eq_ok hstripped,
        bind_eq_ok_iff]
      constructor
      · rintro ⟨role, hrole, h⟩
        obtain ⟨cosigner, hcosigner, rfl⟩ := (roleIn_demandScript_eq_ok_iff hvalid).mp hrole
        obtain ⟨⟨signature, digest⟩, hsigned, h⟩ := bind_eq_ok_iff.mp h
        obtain ⟨_, hdigest', hsigned⟩ := bind_eq_ok_iff.mp hsigned
        obtain ⟨_, hsignature, hsigned⟩ := bind_eq_ok_iff.mp hsigned
        cases hsigned
        rw [hdigest] at hdigest'
        exact ⟨cosigner, digest, signature, hcosigner, hdigest', hsignature, h⟩
      · rintro ⟨cosigner, digest, signature, hcosigner, hdigest', hsignature, h⟩
        have hsigned : tx.signatureFor index hashType key (demandScript redeem)
            = .ok (signature, digest) := by
          rw [signatureFor, hdigest, bind_of_eq_ok hdigest', bind_of_eq_ok hsignature]
        use .cosigner redeem cosigner
        use (roleIn_demandScript_eq_ok_iff hvalid).mpr ⟨cosigner, hcosigner, rfl⟩
        rw [bind_of_eq_ok hsigned]
        apply h
  · next hindex =>
    constructor
    · rintro ⟨⟩
    · exact fun h => absurd h.1 hindex

/-- Every input has a digest for a demand. -/
theorem exists_digest (hvalid : redeem.Valid) (hindex : index < tx.inputs.length)
    (hashType : HashType) :
  ∃ digest, tx.digest index hashType (demandScript redeem) = .ok digest
  := exists_digest_of_removeOp hindex (removeOp_demandScript hvalid) hashType

/-- The script of an input that is there. -/
theorem currentScript_eq {input : Input} (hinput : tx.inputs[index]? = some input) :
  (tx.inputs[index]?.map (·.script)).getD Script.empty = input.script
  := by
  rw [hinput]
  rfl

/-- The first signature is written alone. -/
theorem mergeSignature_of_empty {current : Script} {cosigner : Nat} {signature : Signature}
    {digest : FixedBytes 32} {type : UInt8} (hempty : current.bytes = []) :
  mergeSignature current (demandScript redeem) redeem cosigner signature digest type
    = Script.ofMultisigSignatures [signatureBytes signature type] (demandScript redeem)
  := by
  rw [mergeSignature, hempty]
  rfl

/-- A supply that is complete is not merged with a further signature. -/
theorem mergeSignature_of_complete {current : Script} {existing : MultisigSignatures}
    (hne : current.bytes ≠ []) (hexisting : current.multisigSignatures? = some existing)
    (hsame : existing.redeem.bytes = (demandScript redeem).bytes)
    (hcomplete : redeem.required ≤ existing.signatures.length) (cosigner : Nat)
    (signature : Signature) (digest : FixedBytes 32) (type : UInt8) :
  mergeSignature current (demandScript redeem) redeem cosigner signature digest type
    = .error (.signing (.alreadyComplete existing.signatures.length redeem.required))
  := by
  have hempty : ¬ current.bytes.isEmpty = true := by rwa [List.isEmpty_iff]
  have hread : current.multisigSignatures = .ok existing := by
    rw [Script.multisigSignatures, hexisting]
  have hredeem : ¬ (!existing.redeem.same (demandScript redeem)) = true := by
    rw [Script.same, hsame]
    simp
  rw [mergeSignature, if_neg hempty, bind_of_eq_ok hread, if_neg hredeem, if_pos hcomplete]

/-- What merging a signature with those of an input does, step by step. -/
theorem mergeSignature_eq_ok_iff {current script : Script} {cosigner : Nat}
    {signature : Signature} {digest : FixedBytes 32} {type : UInt8} (hne : current.bytes ≠ []) :
  mergeSignature current (demandScript redeem) redeem cosigner signature digest type = .ok script
    ↔ ∃ existing keys slots, current.multisigSignatures? = some existing
      ∧ existing.redeem.bytes = (demandScript redeem).bytes
      ∧ existing.signatures.length < redeem.required
      ∧ redeem.keys.mapM (PublicKey.ofBytes · .mainnet) = .ok keys
      ∧ assignAll keys digest type (keys.map fun _ => none) existing.signatures = .ok slots
      ∧ slots.getD cosigner none = none
      ∧ Script.ofMultisigSignatures
        (((slots.set cosigner (some signature)).filterMap id).map (signatureBytes · type))
        (demandScript redeem) = .ok script
  := by
  have hempty : ¬ current.bytes.isEmpty = true := by rwa [List.isEmpty_iff]
  rw [mergeSignature, if_neg hempty, Script.multisigSignatures]
  cases current.multisigSignatures? with
  | none =>
    constructor
    · rintro ⟨⟩
    · rintro ⟨_, _, _, ⟨⟩, _⟩
  | some existing =>
    rw [bind_of_eq_ok rfl, Script.same]
    split
    · next hredeem =>
      constructor
      · rintro ⟨⟩
      · rintro ⟨_, _, _, ⟨⟩, hsame, _⟩
        rw [hsame] at hredeem
        simp at hredeem
    · next hredeem =>
      have hsame : existing.redeem.bytes = (demandScript redeem).bytes := by simpa using hredeem
      split
      · next hcomplete =>
        constructor
        · rintro ⟨⟩
        · rintro ⟨_, _, _, ⟨⟩, _, hlt, _⟩
          apply absurd hlt (Nat.not_lt.mpr hcomplete)
      · next hcomplete =>
        constructor
        · intro h
          obtain ⟨keys, hkeys, h⟩ := bind_eq_ok_iff.mp h
          obtain ⟨slots, hslots, h⟩ := bind_eq_ok_iff.mp h
          split at h
          · cases h
          · next hfree =>
            rw [Option.not_isSome_iff_eq_none] at hfree
            exact ⟨existing, keys, slots, rfl, hsame, Nat.lt_of_not_ge hcomplete, hkeys, hslots,
              hfree, h⟩
        · rintro ⟨_, keys, slots, ⟨⟩, _, _, hkeys, hslots, hfree, h⟩
          rw [bind_of_eq_ok hkeys, bind_of_eq_ok hslots, hfree]
          apply h

/-- The signature with which a key signs, and with it all that are merged, are found again in
the order of the keys. -/
theorem Verified.matched_signatureBytes {keys : List PublicKey} {digest : FixedBytes 32}
    {slots : Slots} (h : Verified keys digest slots) (type : UInt8) :
  Matched (fun bytes key => ∃ signature, ofSignatureBytes bytes type = .ok signature
      ∧ key.verifyDigest digest.toList signature = true)
    ((slots.filterMap id).map (signatureBytes · type)) keys
  := by
  apply h.matched.map
  intro signature key hgood
  refine ⟨{ signature with recoveryId := none }, ofSignatureBytes_eq_ok_iff.mpr ⟨rfl, rfl⟩, ?_⟩
  rw [PublicKey.verifyDigest_withoutId, hgood]

theorem filterMap_empty (keys : List PublicKey) :
  (keys.map fun _ => (none : Option Signature)).filterMap id = []
  := by
  simp

/-- The cosigner that a private key is has its public key. -/
theorem point_of_cosigner? {keys : List PublicKey} {cosigner : Nat}
    (hkeys : redeem.keys.mapM (PublicKey.ofBytes · .mainnet) = .ok keys)
    (hcosigner : cosigner? redeem key.publicKey = some cosigner) :
  ∃ publicKey, keys[cosigner]? = some publicKey ∧ publicKey.point = key.publicKey.point
  := by
  obtain ⟨hlt, hform, _⟩ := List.findIdx?_eq_some_iff_getElem.mp hcosigner
  have hall := mapM_eq_ok_iff.mp hkeys
  have hlt' : cosigner < keys.length := hall.length_eq ▸ hlt
  have hdecoded := (List.forall₂_iff_get.mp hall).2 cosigner hlt hlt'
  use keys[cosigner], List.getElem?_eq_getElem hlt'
  rw [Bool.or_eq_true, beq_iff_eq, beq_iff_eq] at hform
  rw [List.get_eq_getElem] at hdecoded
  rcases hform with hform | hform
  · rw [hform, key.ofBytes_publicKey] at hdecoded
    apply (congrArg PublicKey.point (Except.ok.inj hdecoded)).symm
  · rw [hform, key.ofBytes_publicKey] at hdecoded
    apply (congrArg PublicKey.point (Except.ok.inj hdecoded)).symm

/-- Signing puts the signed script into the input, and changes nothing else. -/
theorem signInput_eq_ok_iff :
  tx.signInput index hashType key subScript = .ok tx'
    ↔ ∃ script, tx.signedScript index hashType key subScript = .ok script
      ∧ tx.withScript index script = tx'
  := by
  rw [signInput, bind_eq_ok_iff]
  constructor
  · rintro ⟨script, hscript, ⟨⟩⟩
    exact ⟨script, hscript, rfl⟩
  · rintro ⟨script, hscript, rfl⟩
    exact ⟨script, hscript, rfl⟩

/-! ### Signing for a demand -/

/-- The script that supplies signatures to a demand. -/
def supplyScript (redeem : MultisigRedeem) (signatures : List Bytes) : Script :=
  .assembled (.flat (MultisigSignatures.mk signatures (demandScript redeem)).tokens)

theorem supplies_supplyScript (redeem : MultisigRedeem) (signatures : List Bytes) :
  (supplyScript redeem signatures).Supplies signatures (demandScript redeem).bytes
  := Script.supplies_flat_tokens _

section Success

variable {input : Input} {digest : FixedBytes 32} {cosigner : Nat} (hvalid : redeem.Valid)
  (hinput : tx.inputs[index]? = some input) (htype : hashType < 0x100)
  (hdigest : tx.digest index hashType (demandScript redeem) = .ok digest)
  (hcosigner : cosigner? redeem key.publicKey = some cosigner)

include hvalid hinput htype hdigest hcosigner

/-- A cosigner signs an input if their signature can be merged. -/
theorem signInput_of_merge {signatures : List Bytes}
    (hcount : signatures.length ≤ redeem.keys.length) (hne : ∀ bytes ∈ signatures, bytes ≠ [])
    (hmerge : ∀ {script},
      Script.ofMultisigSignatures signatures (demandScript redeem) = .ok script →
      mergeSignature input.script (demandScript redeem) redeem cosigner
        (Ecdsa.sign key.secret digest) digest hashType.toUInt8 = .ok script) :
  tx.signInput index hashType key (demandScript redeem)
    = .ok (tx.withScript index (supplyScript redeem signatures))
  := by
  have hredeem := multisigRedeem?_demandScript hvalid
  obtain ⟨hindex, _⟩ := List.getElem?_eq_some_iff.mp hinput
  have hmerged := hmerge
    (Script.ofMultisigSignatures_eq_ok_iff.mpr ⟨⟨redeem, hredeem, hcount⟩, hne, rfl⟩)
  rw [← currentScript_eq hinput] at hmerged
  have hscript := (signedScript_eq_ok_iff (wellFormed_demandScript hvalid) hredeem).mpr
    ⟨hindex, htype, cosigner, digest, _, hcosigner, hdigest, key.signDigest_toList digest, hmerged⟩
  exact signInput_eq_ok_iff.mpr ⟨_, hscript, rfl⟩

/-- The input has the signature of the first signer. -/
theorem signInput_of_unsigned (hempty : input.script.bytes = []) :
  tx.signInput index hashType key (demandScript redeem)
    = .ok (tx.withScript index (supplyScript redeem
      [signatureBytes (Ecdsa.sign key.secret digest) hashType.toUInt8]))
  := by
  apply signInput_of_merge hvalid hinput htype hdigest hcosigner
  · exact Nat.le_trans hvalid.required_pos hvalid.required_le
  · intro bytes hbytes
    rw [List.mem_singleton.mp hbytes]
    apply signatureBytes_ne_nil
  · intro script hbuilt
    rw [mergeSignature_of_empty hempty, hbuilt]

/-- A cosigner whose slot is free adds their signature to those that the input has. -/
theorem signInput_of_supplied {existing : List Bytes} {keys : List PublicKey} {slots : Slots}
    (hsupplies : input.script.Supplies existing (demandScript redeem).bytes)
    (hlt : existing.length < redeem.required)
    (hkeys : redeem.keys.mapM (PublicKey.ofBytes · .mainnet) = .ok keys)
    (hslots : assignAll keys digest hashType.toUInt8 (keys.map fun _ => none) existing = .ok slots)
    (hfree : slots[cosigner]? = some none) :
  tx.signInput index hashType key (demandScript redeem)
    = .ok (tx.withScript index (supplyScript redeem
      (((slots.set cosigner (some (Ecdsa.sign key.secret digest))).filterMap id).map
        (signatureBytes · hashType.toUInt8))))
  := by
  apply signInput_of_merge hvalid hinput htype hdigest hcosigner
  · obtain ⟨_, hperm⟩ := verified_of_assignAll (verified_empty keys digest) hslots
    rw [filterMap_empty, List.map_nil, List.nil_append] at hperm
    have hsignatures := ((perm_filterMap_set hfree (Ecdsa.sign key.secret digest)).map
      (signatureBytes · hashType.toUInt8)).trans (hperm.cons _)
    rw [hsignatures.length_eq]
    exact Nat.le_trans hlt hvalid.required_le
  · intro bytes hbytes
    obtain ⟨made, _, rfl⟩ := List.mem_map.mp hbytes
    apply signatureBytes_ne_nil
  · intro script hbuilt
    have hexisting := Script.multisigSignatures?_of_supplies hsupplies
      (isMultisigRedeem_demandScript hvalid)
    have hnone : slots.getD cosigner none = none := by
      rw [List.getD_eq_getElem?_getD, hfree]
      rfl
    exact (mergeSignature_eq_ok_iff hsupplies.bytes_ne_nil).mpr
      ⟨_, keys, slots, hexisting, rfl, hlt, hkeys, hslots, hnone, hbuilt⟩

end Success

/-! ### Demands of keys -/

/-- Someone whose public key is listed in a demand is one of its cosigners. -/
theorem exists_cosigner? {publicKey : PublicKey}
    (h : publicKey.toBytes false ∈ redeem.keys ∨ publicKey.toBytes true ∈ redeem.keys) :
  ∃ cosigner, cosigner? redeem publicKey = some cosigner
  := by
  rw [← Option.isSome_iff_exists, cosigner?, List.findIdx?_isSome, List.any_eq_true]
  rcases h with h | h
  · exact ⟨_, h, by simp⟩
  · exact ⟨_, h, by simp⟩

/-- Public keys are read from their compressed forms. -/
theorem mapM_ofBytes_publicKey (keys : List PrivateKey) (network : Network) :
  (keys.map (·.publicKey.toBytes true)).mapM (PublicKey.ofBytes · network)
    = .ok (keys.map fun key => ⟨key.publicKey.point, network⟩)
  := by
  apply mapM_eq_ok_iff.mpr
  rw [List.forall₂_map_left_iff, List.forall₂_map_right_iff, List.forall₂_same]
  exact fun key _ => key.ofBytes_publicKey true network

/-- Up to sixteen keys can be listed in a demand. -/
theorem valid_publicKeys {required : Nat} {keys : List PrivateKey} (hpos : 0 < required)
    (hle : required ≤ keys.length) (hlength : keys.length ≤ 16) :
  MultisigRedeem.Valid ⟨required, keys.map (·.publicKey.toBytes true)⟩
  := by
  refine ⟨hpos, ?_, ?_, ?_⟩
  · rwa [List.length_map]
  · rwa [List.length_map]
  · intro bytes hbytes
    obtain ⟨key, _, rfl⟩ := List.mem_map.mp hbytes
    apply key.hasKeyForm_publicKey true

/-- The demand for the signatures of two keys. -/
def demandOfBoth (first second : PrivateKey) : MultisigRedeem :=
  ⟨2, [first, second].map (·.publicKey.toBytes true)⟩

theorem valid_demandOfBoth (first second : PrivateKey) :
  (demandOfBoth first second).Valid
  := valid_publicKeys Nat.two_pos (Nat.le_refl 2) (by simp)

theorem mapM_keys_demandOfBoth (first second : PrivateKey) :
  (demandOfBoth first second).keys.mapM (PublicKey.ofBytes · .mainnet)
    = .ok [⟨first.publicKey.point, .mainnet⟩, ⟨second.publicKey.point, .mainnet⟩]
  := mapM_ofBytes_publicKey [first, second] .mainnet

/-- The public keys that are read have the points of the keys. -/
theorem exists_keys_demandOfBoth (first second : PrivateKey) :
  ∃ publicKey publicKey' : PublicKey,
    (demandOfBoth first second).keys.mapM (PublicKey.ofBytes · .mainnet)
      = .ok [publicKey, publicKey']
    ∧ publicKey.point = first.publicKey.point ∧ publicKey'.point = second.publicKey.point
  := ⟨_, _, mapM_keys_demandOfBoth first second, rfl, rfl⟩

/-- The public keys of two keys are different. -/
theorem nodup_points {first second : PrivateKey} (hne : first.secret ≠ second.secret)
    {publicKey publicKey' : PublicKey} (hpoint : publicKey.point = first.publicKey.point)
    (hpoint' : publicKey'.point = second.publicKey.point) :
  ([publicKey, publicKey'].map PublicKey.point).Nodup
  := by
  rw [List.map_cons, List.map_singleton, hpoint, hpoint']
  apply List.nodup_cons.mpr
  refine ⟨?_, List.nodup_singleton _⟩
  intro h
  apply hne (PrivateKey.secret_eq_of_point_eq (List.mem_singleton.mp h))

/-- The second of two different keys has the second place in their demand. -/
theorem cosigner?_second {first second : PrivateKey} (hne : first.secret ≠ second.secret) :
  cosigner? (demandOfBoth first second) second.publicKey = some 1
  := by
  have hlisted : second.publicKey.toBytes true ∈ (demandOfBoth first second).keys := by
    simp [demandOfBoth]
  obtain ⟨cosigner, hcosigner⟩ := exists_cosigner? (.inr hlisted)
  obtain ⟨publicKey, hpublicKey, hpoint⟩ :=
    point_of_cosigner? (mapM_keys_demandOfBoth first second) hcosigner
  match cosigner with
  | 0 =>
    cases hpublicKey
    apply absurd (PrivateKey.secret_eq_of_point_eq hpoint) hne
  | 1 => apply hcosigner
  | _ + 2 => cases hpublicKey

theorem cosigner?_first (first second : PrivateKey) :
  cosigner? (demandOfBoth first second) first.publicKey = some 0
  := by
  simp [cosigner?, demandOfBoth, List.findIdx?_cons]

/-! ### Merging -/

/-- Merging a signature loses and repeats none: the signatures after it are those before it
and the new one, in an order in which their keys follow each other in the demand. -/
theorem signInput_merges {input : Input} (hwf : subScript.WellFormed)
    (hredeem : subScript.multisigRedeem? = some redeem) (hinput : tx.inputs[index]? = some input)
    (hne : input.script.bytes ≠ [])
    (h : tx.signInput index hashType key subScript = .ok tx') :
  ∃ (existing signatures : List Bytes) (script : Script) (digest : FixedBytes 32)
      (signature : Signature) (keys : List PublicKey),
    input.script.Supplies existing subScript.bytes
    ∧ script.Supplies signatures subScript.bytes
    ∧ tx' = tx.withScript index script
    ∧ tx.digest index hashType subScript = .ok digest
    ∧ key.signDigest digest.toList = .ok signature
    ∧ signatures.Perm (signatureBytes signature hashType.toUInt8 :: existing)
    ∧ signatures.length ≤ redeem.required
    ∧ redeem.keys.mapM (PublicKey.ofBytes · .mainnet) = .ok keys
    ∧ ∃ f : Fin signatures.length → Fin keys.length, StrictMono f ∧ ∀ i, ∃ decoded,
      ofSignatureBytes signatures[i] hashType.toUInt8 = .ok decoded
        ∧ keys[f i].verifyDigest digest.toList decoded = true
  := by
  obtain ⟨hvalid, hbytes⟩ := Script.multisigRedeem?_eq_some_iff.mp hredeem
  have hdemand : (demandScript redeem).bytes = subScript.bytes := by
    rw [hbytes]
    apply Script.bytes_flat _
  obtain ⟨script, hscript, rfl⟩ := signInput_eq_ok_iff.mp h
  obtain ⟨_, _, cosigner, digest, signature, hcosigner, hdigest, hsignature, hmerge⟩ :=
    (signedScript_eq_ok_iff hwf hredeem).mp hscript
  rw [currentScript_eq hinput] at hmerge
  obtain ⟨existing, keys, slots, hexisting, hsame, hlt, hkeys, hslots, hfree, hbuilt⟩ :=
    (mergeSignature_eq_ok_iff hne).mp hmerge
  obtain ⟨_, _, rfl⟩ := Script.ofMultisigSignatures_eq_ok_iff.mp hbuilt
  obtain ⟨publicKey, hpublicKey, hpoint⟩ := point_of_cosigner? hkeys hcosigner
  have hgood : publicKey.verifyDigest digest.toList signature = true :=
    PrivateKey.verifyDigest_of_signDigest hsignature hpoint
  obtain ⟨hverified, hperm⟩ := verified_of_assignAll (verified_empty keys digest) hslots
  rw [filterMap_empty, List.map_nil, List.nil_append] at hperm
  have hslot : slots[cosigner]? = some none := by
    obtain ⟨hlength, _⟩ := List.getElem?_eq_some_iff.mp hpublicKey
    have hslots : slots.length = keys.length := hverified.length_eq
    rw [List.getD_eq_getElem?_getD, List.getElem?_eq_getElem (hslots ▸ hlength)] at hfree
    rw [List.getElem?_eq_getElem (hslots ▸ hlength)]
    apply congrArg some hfree
  have hsignatures := ((perm_filterMap_set hslot signature).map
    (signatureBytes · hashType.toUInt8)).trans (hperm.cons _)
  have hmatched := (hverified.set hpublicKey hgood).matched_signatureBytes hashType.toUInt8
  refine ⟨existing.signatures, _, _, digest, signature, keys, ?_, ?_, rfl, hdigest, hsignature,
    hsignatures, ?_, hkeys, hmatched.exists_strictMono⟩
  · rw [← hdemand, ← hsame]
    apply Script.supplies_of_multisigSignatures? hexisting
  · rw [← hdemand]
    apply Script.supplies_flat_tokens _
  · rw [hsignatures.length_eq]
    apply hlt

/-- The key with the secret scalar one, whose public key is the generator. -/
def keyOne : PrivateKey :=
  ⟨⟨1, by decide⟩, .mainnet⟩

/-- The key with the secret scalar two. -/
def keyTwo : PrivateKey :=
  ⟨⟨2, by decide⟩, .mainnet⟩

/-- The first component of the signature that the first key makes of a fixed digest. -/
def firstOfKeyOne : Scalar :=
  ⟨14295053964488743090340009838833186193957205491298546148700052350175735655842, by decide⟩

/-- The first component of the signature that the second key makes of it. -/
def firstOfKeyTwo : Scalar :=
  ⟨101546772654720709317426426901893733374401380931212867327884002113301842248265, by decide⟩

theorem r_sign_keyOne :
  (Ecdsa.sign keyOne.secret missingOutputDigest).r.val = firstOfKeyOne
  := by
  apply @Ecdsa.apply_sign_of_attempt? _ _ _ (·.r.val)
  decide +kernel

theorem r_sign_keyTwo :
  (Ecdsa.sign keyTwo.secret missingOutputDigest).r.val = firstOfKeyTwo
  := by
  apply @Ecdsa.apply_sign_of_attempt? _ _ _ (·.r.val)
  decide +kernel

section

variable {publicKey : PublicKey}

/-- The second key does not verify the signature of the first one. -/
theorem verifyDigest_keyTwo (hpoint : publicKey.point = keyTwo.publicKey.point) :
  publicKey.verifyDigest missingOutputDigest.toList
      (Ecdsa.sign keyOne.secret missingOutputDigest) = false
  := PrivateKey.verifyDigest_sign_eq_false r_sign_keyOne (by decide) (by decide) (by decide) hpoint

/-- Nor does the first key verify the signature of the second one. -/
theorem verifyDigest_keyOne (hpoint : publicKey.point = keyOne.publicKey.point) :
  publicKey.verifyDigest missingOutputDigest.toList
      (Ecdsa.sign keyTwo.secret missingOutputDigest) = false
  := PrivateKey.verifyDigest_sign_eq_false r_sign_keyTwo (by decide) (by decide) (by decide) hpoint

end

/-- The first of two cosigners signs after the second one, whose signature is kept and stands
behind the new one. -/
theorem signInput_merges_before :
  let subScript := demandScript (demandOfBoth keyOne keyTwo)
  let made := signatureBytes (Ecdsa.sign keyTwo.secret missingOutputDigest) 3
  let tx : Transaction :=
    ⟨1, [⟨⟨FixedBytes.zero 32, 0⟩, supplyScript (demandOfBoth keyOne keyTwo) [made], 0⟩], [], 0⟩
  ∃ script, tx.signInput 0 3 keyOne subScript = .ok (tx.withScript 0 script)
    ∧ script.Supplies [signatureBytes (Ecdsa.sign keyOne.secret missingOutputDigest) 3, made]
      subScript.bytes
  := by
  intro subScript made tx
  have hvalid := valid_demandOfBoth keyOne keyTwo
  have hsupplies := supplies_supplyScript (demandOfBoth keyOne keyTwo) [made]
  let found : Signature := { Ecdsa.sign keyTwo.secret missingOutputDigest with recoveryId := none }
  have hread : ofSignatureBytes made 3 = .ok found := ofSignatureBytes_eq_ok_iff.mpr ⟨rfl, rfl⟩
  obtain ⟨first, second, hkeys, hpoint, hpoint'⟩ := exists_keys_demandOfBoth keyOne keyTwo
  have hfirst : first.verifyDigest missingOutputDigest.toList found = false := by
    rw [PublicKey.verifyDigest_withoutId]
    exact verifyDigest_keyOne hpoint
  have hsecond : second.verifyDigest missingOutputDigest.toList found = true := by
    rw [PublicKey.verifyDigest_withoutId]
    exact PrivateKey.verifyDigest_of_signDigest (keyTwo.signDigest_toList _) hpoint'
  have hslots : assignAll [first, second] missingOutputDigest 3 [none, none] [made]
      = .ok [none, some found] := by
    have hassign : assign [first, second] missingOutputDigest [none, none] found
        = .ok [none, some found] :=
      @assign_of_first missingOutputDigest [first] [] second [none] [] found rfl
        (List.forall_mem_singleton.mpr hfirst) hsecond
    rw [assignAll, bind_of_eq_ok hread, bind_of_eq_ok hassign]
    rfl
  have h := @signInput_of_supplied tx 0 3 keyOne _ _ missingOutputDigest 0 hvalid rfl
    (by decide) rfl (cosigner?_first keyOne keyTwo) _ _ _ hsupplies Nat.one_lt_two hkeys hslots rfl
  obtain ⟨existing, signatures, script', digest, signature, keys, hexisting, hsigned, hscript,
    hdigest, hsignature, hperm, -, hkeys', f, hf, hall⟩ :=
    signInput_merges (wellFormed_demandScript hvalid) (multisigRedeem?_demandScript hvalid) rfl
      hsupplies.bytes_ne_nil h
  obtain rfl : digest = missingOutputDigest := Except.ok.inj (hdigest.symm.trans rfl)
  obtain rfl := PrivateKey.signDigest_eq_ok_iff.mp hsignature
  obtain rfl : keys = [first, second] := Except.ok.inj (hkeys'.symm.trans hkeys)
  rw [← hsupplies.signatures_eq hexisting] at hperm
  rcases List.perm_pair.mp hperm with rfl | rfl
  · exact ⟨script', h.trans (congrArg Except.ok hscript), hsigned⟩
  · -- The signature of the second key is not that of the first one.
    obtain ⟨decoded, hdecoded, hverified⟩ := hall 0
    obtain rfl := Except.ok.inj (hdecoded.symm.trans hread)
    have hleast : ∀ i j : Fin 2, i < j → i = 0 := by decide
    have hforeign : ∀ i : Fin [first, second].length, i = ⟨0, Nat.two_pos⟩ →
        ¬ [first, second][i].verifyDigest missingOutputDigest.toList found = true := by
      rintro _ rfl
      exact Bool.eq_false_iff.mp hfirst
    exact absurd hverified (hforeign (f 0) (hleast (f 0) (f 1) (hf Nat.zero_lt_one)))

end Transaction

end Bitcoin
