import Bitcoin.Proofs.Transaction.Cosignatures

/-!
# Signing in any order

When signers of a demand sign an input one after the other, each step succeeds, and the input
then has the signatures of all who have signed (`Transaction.signInput_cosigned`). So the
order in which they sign does not matter. The output is spent as soon as there are enough of
them.
-/

namespace Bitcoin

namespace Transaction

/-- Whether an input that has not been signed yet can be signed for a demand, with a digest. -/
structure Cosignable (tx : Transaction) (index : Nat) (hashType : HashType)
    (redeem : MultisigRedeem) (publicKeys : List PublicKey) (digest : FixedBytes 32) : Prop where
  valid : redeem.Valid
  decoded : redeem.keys.mapM (PublicKey.ofBytes · .mainnet) = .ok publicKeys
  distinct : (publicKeys.map PublicKey.point).Nodup
  unsigned : ∃ input, tx.inputs[index]? = some input ∧ input.script.bytes = []
  hashType_lt : hashType < 0x100
  digest_eq : tx.digest index hashType (demandScript redeem) = .ok digest

/-- Whether some signers can sign for a demand: they are different, take part in it, and are
not more than it demands. -/
structure Cosigners (redeem : MultisigRedeem) (publicKeys : List PublicKey)
    (digest : FixedBytes 32) (signers : List PrivateKey) : Prop where
  secrets : (signers.map (·.secret)).Nodup
  listed : ∀ key ∈ signers, ∃ cosigner, cosigner? redeem key.publicKey = some cosigner
  length_le : signers.length ≤ redeem.required
  sign : ∀ key ∈ signers, key.SignsAlone publicKeys digest

variable {tx : Transaction} {index : Nat} {hashType : HashType} {redeem : MultisigRedeem}
  {publicKeys : List PublicKey} {digest : FixedBytes 32} {key : PrivateKey}
  {signers : List PrivateKey}

/-- The signatures of some signers as a script supplies them, in the order of the public
keys. -/
def cosignatureBytes (publicKeys : List PublicKey) (digest : FixedBytes 32) (hashType : HashType)
    (signers : List PrivateKey) : List Bytes :=
  ((cosignatures publicKeys digest signers).filterMap id).map (signatureBytes · hashType.toUInt8)

/-- The script of an input that some signers have signed. -/
def cosignedScript (redeem : MultisigRedeem) (publicKeys : List PublicKey)
    (digest : FixedBytes 32) (hashType : HashType) (signers : List PrivateKey) : Script :=
  supplyScript redeem (cosignatureBytes publicKeys digest hashType signers)

/-- The transaction of which some signers have signed an input. -/
def cosigned (tx : Transaction) (index : Nat) (redeem : MultisigRedeem)
    (publicKeys : List PublicKey) (digest : FixedBytes 32) (hashType : HashType)
    (signers : List PrivateKey) : Transaction :=
  match signers with
  | [] => tx
  | _ :: _ => tx.withScript index (cosignedScript redeem publicKeys digest hashType signers)

theorem Cosignable.digest_cosigned
    (h : Cosignable tx index hashType redeem publicKeys digest) (signers : List PrivateKey) :
  (cosigned tx index redeem publicKeys digest hashType signers).digest index hashType
      (demandScript redeem) = .ok digest
  := by
  cases signers with
  | nil => apply h.digest_eq
  | cons key signers =>
    rw [cosigned, digest_withScript]
    apply h.digest_eq

/-! ### One signer -/

/-- The signatures of some signers with that of another one. -/
theorem cosignatureBytes_cons {cosigner : Nat} {publicKey : PublicKey}
    (hpoints : (publicKeys.map PublicKey.point).Nodup)
    (hpublicKey : publicKeys[cosigner]? = some publicKey)
    (hpoint : publicKey.point = key.publicKey.point) :
  cosignatureBytes publicKeys digest hashType (key :: signers)
    = ((((cosignatures publicKeys digest signers).set cosigner
      (some (Ecdsa.sign key.secret digest))).filterMap id).map
      (signatureBytes · hashType.toUInt8))
  := by
  have hbytes : ∀ slots : Slots, (slots.filterMap id).map (signatureBytes · hashType.toUInt8)
      = (slots.map (Option.map (signatureBytes · hashType.toUInt8))).filterMap id := by
    intro slots
    simp [List.map_filterMap, List.filterMap_map]
  rw [cosignatureBytes, cosignatures_cons hpoints hpublicKey hpoint, hbytes, hbytes,
    List.map_set, List.map_set]
  rfl

/-- Some of the signers can sign without the others. -/
theorem Cosigners.of_append {later : List PrivateKey}
    (h : Cosigners redeem publicKeys digest (later ++ signers)) :
  Cosigners redeem publicKeys digest signers
  := by
  obtain ⟨hsecrets, hlisted, hle, hsign⟩ := h
  rw [List.map_append] at hsecrets
  rw [List.length_append] at hle
  refine ⟨(List.nodup_append.mp hsecrets).2.1, ?_, Nat.le_trans (Nat.le_add_left _ _) hle, ?_⟩
  · exact fun k hk => hlisted k (List.mem_append_right later hk)
  · exact fun k hk => hsign k (List.mem_append_right later hk)

theorem Cosigners.tail (h : Cosigners redeem publicKeys digest (key :: signers)) :
  Cosigners redeem publicKeys digest signers
  := @of_append redeem publicKeys digest signers [key] h

theorem Cosigners.perm {order : List PrivateKey} (h : Cosigners redeem publicKeys digest signers)
    (hperm : order.Perm signers) :
  Cosigners redeem publicKeys digest order
  := by
  refine ⟨(hperm.map _).nodup_iff.mpr h.secrets, ?_, ?_, ?_⟩
  · exact fun k hk => h.listed k (hperm.mem_iff.mp hk)
  · rw [hperm.length_eq]
    apply h.length_le
  · exact fun k hk => h.sign k (hperm.mem_iff.mp hk)

theorem length_cosignatureBytes (h : Cosignable tx index hashType redeem publicKeys digest)
    (hsigners : Cosigners redeem publicKeys digest signers) :
  (cosignatureBytes publicKeys digest hashType signers).length = signers.length
  := by
  rw [cosignatureBytes, List.length_map]
  apply length_cosignatures h.distinct hsigners.secrets _ hsigners.sign
  intro key hkey
  obtain ⟨cosigner, hcosigner⟩ := hsigners.listed key hkey
  obtain ⟨publicKey, hpublicKey, hpoint⟩ := point_of_cosigner? h.decoded hcosigner
  exact ⟨publicKey, List.mem_of_getElem? hpublicKey, hpoint⟩

theorem ne_nil_of_mem_cosignatureBytes {bytes : Bytes}
    (h : bytes ∈ cosignatureBytes publicKeys digest hashType signers) :
  bytes ≠ []
  := by
  obtain ⟨signature, _, rfl⟩ := List.mem_map.mp h
  apply signatureBytes_ne_nil signature _

/-- What an input that was signed supplies. -/
theorem multisigSignatures?_cosignedScript (hvalid : redeem.Valid) :
  (cosignedScript redeem publicKeys digest hashType signers).multisigSignatures?
    = some ⟨cosignatureBytes publicKeys digest hashType signers,
      .encoded (demandScript redeem).bytes⟩
  := Script.multisigSignatures?_flat_tokens (isMultisigRedeem_demandScript hvalid)

theorem bytes_cosignedScript_ne_nil :
  (cosignedScript redeem publicKeys digest hashType signers).bytes ≠ []
  := (supplies_supplyScript redeem _).bytes_ne_nil

/-- The signatures of some signers are given back to their public keys. -/
theorem assignAll_cosignatureBytes (h : Cosignable tx index hashType redeem publicKeys digest)
    (hsigners : Cosigners redeem publicKeys digest signers) :
  assignAll publicKeys digest hashType.toUInt8 (publicKeys.map fun _ => none)
      (cosignatureBytes publicKeys digest hashType signers)
    = .ok (cosignatures publicKeys digest signers)
  := @assignAll_of_alone digest hashType.toUInt8 [] publicKeys [] _ rfl h.distinct
    (alone_cosignatures hsigners.sign)

/-- A further signer adds their signature to those of the others. -/
theorem signInput_cosigned (h : Cosignable tx index hashType redeem publicKeys digest)
    (hsigners : Cosigners redeem publicKeys digest (key :: signers)) :
  (cosigned tx index redeem publicKeys digest hashType signers).signInput index hashType key
      (demandScript redeem)
    = .ok (cosigned tx index redeem publicKeys digest hashType (key :: signers))
  := by
  obtain ⟨cosigner, hcosigner⟩ := hsigners.listed key List.mem_cons_self
  obtain ⟨publicKey, hpublicKey, hpoint⟩ := point_of_cosigner? h.decoded hcosigner
  obtain ⟨hfresh, _⟩ := List.nodup_cons.mp hsigners.secrets
  obtain ⟨input, hinput, hempty⟩ := h.unsigned
  have hfree : (cosignatures publicKeys digest signers)[cosigner]? = some none :=
    getElem?_cosignatures hpublicKey hpoint hfresh
  have hbytes : cosignatureBytes publicKeys digest hashType (key :: signers) = _ :=
    cosignatureBytes_cons h.distinct hpublicKey hpoint
  rw [cosigned, cosignedScript, hbytes]
  cases signers with
  | nil =>
    have hfirst : ((cosignatures publicKeys digest []).set cosigner
        (some (Ecdsa.sign key.secret digest))).filterMap id = [Ecdsa.sign key.secret digest] := by
      have hperm := perm_filterMap_set hfree (Ecdsa.sign key.secret digest)
      rw [← List.perm_singleton]
      simpa [cosignatures] using hperm
    rw [hfirst]
    exact signInput_of_unsigned h.valid hinput h.hashType_lt h.digest_eq hcosigner hempty
  | cons other signers =>
    have hlt := hsigners.length_le
    rw [List.length_cons, ← length_cosignatureBytes h hsigners.tail] at hlt
    have hsigned := signInput_of_supplied h.valid
      (getElem?_withScript hinput (cosignedScript redeem publicKeys digest hashType _))
      h.hashType_lt (h.digest_cosigned (other :: signers)) hcosigner (supplies_supplyScript _ _)
      hlt h.decoded (assignAll_cosignatureBytes h hsigners.tail) hfree
    rw [withScript_withScript] at hsigned
    apply hsigned

/-! ### All signers -/

/-- The transaction after several private keys have signed an input, one after the other. -/
def signAll (tx : Transaction) (index : Nat) (hashType : HashType) (signers : List PrivateKey)
    (subScript : Script) : Except Error Transaction :=
  signers.foldlM (fun tx key => tx.signInput index hashType key subScript) tx

/-- Further signers add their signatures to those of the others. -/
theorem signAll_cosigned (h : Cosignable tx index hashType redeem publicKeys digest)
    {later : List PrivateKey}
    (hsigners : Cosigners redeem publicKeys digest (later.reverse ++ signers)) :
  (cosigned tx index redeem publicKeys digest hashType signers).signAll index hashType later
      (demandScript redeem)
    = .ok (cosigned tx index redeem publicKeys digest hashType (later.reverse ++ signers))
  := by
  induction later generalizing signers with
  | nil => rfl
  | cons key later ih =>
    rw [List.reverse_cons, List.append_assoc] at hsigners ⊢
    have hfirst : (cosigned tx index redeem publicKeys digest hashType signers).signInput index
        hashType key (demandScript redeem)
        = .ok (cosigned tx index redeem publicKeys digest hashType (key :: signers)) :=
      signInput_cosigned h hsigners.of_append
    rw [signAll, List.foldlM_cons, bind_of_eq_ok hfirst]
    apply ih hsigners

/-- What an input has after some signers have signed does not depend on their order. -/
theorem cosigned_perm {order : List PrivateKey} (hperm : order.Perm signers)
    (hsecrets : (order.map (·.secret)).Nodup) :
  cosigned tx index redeem publicKeys digest hashType order
    = cosigned tx index redeem publicKeys digest hashType signers
  := by
  have hscript : cosignedScript redeem publicKeys digest hashType order
      = cosignedScript redeem publicKeys digest hashType signers := by
    rw [cosignedScript, cosignedScript, cosignatureBytes, cosignatureBytes,
      cosignatures_perm hperm hsecrets]
  cases order with
  | nil =>
    rw [hperm.nil_eq]
  | cons key order =>
    cases signers with
    | nil => apply absurd hperm.eq_nil (List.cons_ne_nil _ _)
    | cons key' signers => apply congrArg (tx.withScript index) hscript

/-- All signers succeed, in whatever order they sign. -/
theorem signAll_eq (h : Cosignable tx index hashType redeem publicKeys digest)
    (hsigners : Cosigners redeem publicKeys digest signers) {order : List PrivateKey}
    (hperm : order.Perm signers) :
  tx.signAll index hashType order (demandScript redeem)
    = .ok (cosigned tx index redeem publicKeys digest hashType signers)
  := by
  have hreverse : (order.reverse ++ []).Perm signers := by
    rw [List.append_nil]
    apply (List.reverse_perm order).trans hperm
  have hall := hsigners.perm hreverse
  rw [← cosigned_perm hreverse hall.secrets]
  apply @signAll_cosigned tx index hashType redeem publicKeys digest [] h order hall

/-! ### No further signer -/

/-- Nobody can sign an input that has all the signatures that are demanded. -/
theorem signInput_of_complete {input : Input} {existing : MultisigSignatures}
    (hvalid : redeem.Valid) (hinput : tx.inputs[index]? = some input)
    (hne : input.script.bytes ≠ []) (hexisting : input.script.multisigSignatures? = some existing)
    (hsame : existing.redeem.bytes = (demandScript redeem).bytes)
    (hcomplete : redeem.required ≤ existing.signatures.length) (hashType : HashType)
    (key : PrivateKey) :
  ∃ fault, tx.signInput index hashType key (demandScript redeem) = .error (.signing fault)
  := by
  obtain ⟨hindex, _⟩ := List.getElem?_eq_some_iff.mp hinput
  obtain ⟨digest, hdigest⟩ := exists_digest hvalid hindex hashType
  have hdemand : ¬ (!(demandScript redeem).isMultisigRedeem
      && !(demandScript redeem).isPayToKeyHash) = true := by
    rw [isMultisigRedeem_demandScript hvalid]
    simp
  have hscript : ∃ fault, tx.signedScript index hashType key (demandScript redeem)
      = .error (.signing fault) := by
    rw [signedScript, bind_of_eq_ok (checkInput_of_lt hindex)]
    by_cases htype : hashType ≥ 0x100
    · rw [if_pos htype]
      exact ⟨_, rfl⟩
    · rw [if_neg htype, if_neg hdemand, bind_of_eq_ok (removeOp_demandScript hvalid)]
      change ∃ fault, (roleIn key.publicKey (demandScript redeem) >>= _) = _
      rw [roleIn_demandScript hvalid]
      cases cosigner? redeem key.publicKey with
      | none => exact ⟨_, rfl⟩
      | some cosigner =>
        dsimp only
        rw [bind_of_eq_ok rfl]
        rw [signatureFor, bind_of_eq_ok hdigest, bind_of_eq_ok (key.signDigest_toList digest)]
        refine ⟨_, (congrArg (mergeSignature · _ _ _ _ _ _) (currentScript_eq hinput)).trans
          (mergeSignature_of_complete hne hexisting hsame hcomplete cosigner _ digest _)⟩
  obtain ⟨fault, hscript⟩ := hscript
  use fault
  rw [signInput, hscript]
  rfl

/-! ### A signer whose key verifies the signature of another -/

/-- A signature that the first key verifies is given to that key, whoever has made it. -/
theorem assignAll_of_first {first : PublicKey} {type : UInt8} {signature : Signature}
    (hfirst : first.verifyDigest digest.toList signature = true) :
  assignAll (first :: publicKeys) digest type ((first :: publicKeys).map fun _ => none)
      [signatureBytes signature type]
    = .ok (some { signature with recoveryId := none } :: publicKeys.map fun _ => none)
  := by
  have hread : ofSignatureBytes (signatureBytes signature type) type
      = .ok { signature with recoveryId := none } := ofSignatureBytes_eq_ok_iff.mpr ⟨rfl, rfl⟩
  have hkey : first.verifyDigest digest.toList { signature with recoveryId := none } = true := by
    rw [PublicKey.verifyDigest_withoutId, hfirst]
  have hassign : assign (first :: publicKeys) digest ((first :: publicKeys).map fun _ => none)
      { signature with recoveryId := none }
      = .ok (some { signature with recoveryId := none } :: publicKeys.map fun _ => none) :=
    @assign_of_first digest [] publicKeys first [] _ _ rfl (by simp) hkey
  rw [assignAll, bind_of_eq_ok hread, bind_of_eq_ok hassign]
  rfl

/-- Someone cannot sign an input with the signature of someone else that their key verifies, if
their key is the first one. -/
theorem signInput_of_rival {input : Input} {first : PublicKey} {signature : Signature}
    (hvalid : redeem.Valid)
    (hkeys : redeem.keys.mapM (PublicKey.ofBytes · .mainnet) = .ok (first :: publicKeys))
    (hpoints : ((first :: publicKeys).map PublicKey.point).Nodup)
    (hrival : key.publicKey.point = first.point)
    (hinput : tx.inputs[index]? = some input)
    (hsupplies : input.script.Supplies [signatureBytes signature hashType.toUInt8]
      (demandScript redeem).bytes)
    (hdigest : tx.digest index hashType (demandScript redeem) = .ok digest)
    (hverify : first.verifyDigest digest.toList signature = true) (tx' : Transaction) :
  tx.signInput index hashType key (demandScript redeem) ≠ .ok tx'
  := by
  intro h
  obtain ⟨script, hscript, _⟩ := signInput_eq_ok_iff.mp h
  obtain ⟨_, _, cosigner, digest', made, hcosigner, hdigest', _, hmerge⟩ :=
    (signedScript_eq_ok_iff (wellFormed_demandScript hvalid)
      (multisigRedeem?_demandScript hvalid)).mp hscript
  rw [hdigest] at hdigest'
  obtain rfl := Except.ok.inj hdigest'
  rw [currentScript_eq hinput] at hmerge
  have hdemand : (Script.encoded (demandScript redeem).bytes).isMultisigRedeem = true :=
    isMultisigRedeem_demandScript hvalid
  obtain ⟨existing, keys, slots, hexisting, _, _, hkeys', hslots, hfree, _⟩ :=
    (mergeSignature_eq_ok_iff hsupplies.bytes_ne_nil).mp hmerge
  rw [hkeys] at hkeys'
  obtain rfl := Except.ok.inj hkeys'
  rw [Script.multisigSignatures?_of_supplies hsupplies hdemand] at hexisting
  obtain rfl := Option.some.inj hexisting
  rw [assignAll_of_first hverify] at hslots
  obtain rfl := Except.ok.inj hslots
  obtain ⟨publicKey, hpublicKey, hpoint⟩ := point_of_cosigner? hkeys hcosigner
  cases cosigner with
  | zero => cases hfree
  | succ cosigner =>
    apply (List.nodup_cons.mp hpoints).1
    rw [← hrival, ← hpoint]
    exact List.mem_map_of_mem (List.mem_of_getElem? hpublicKey)

/-- When the first of two keys verifies the signature of the second one, it can sign before it,
but not after it. -/
theorem signAll_of_both {rival : PrivateKey} {input : Input} (hne : rival.secret ≠ key.secret)
    (hinput : tx.inputs[index]? = some input) (hempty : input.script.bytes = [])
    (htype : hashType < 0x100)
    (hdigest : tx.digest index hashType (demandScript (demandOfBoth rival key)) = .ok digest)
    (hverify : rival.publicKey.verifyDigest digest.toList (Ecdsa.sign key.secret digest) = true) :
  (∃ tx', tx.signAll index hashType [rival, key] (demandScript (demandOfBoth rival key)) = .ok tx')
    ∧ ∀ tx', tx.signAll index hashType [key, rival] (demandScript (demandOfBoth rival key))
      ≠ .ok tx'
  := by
  have hvalid := valid_demandOfBoth rival key
  obtain ⟨first, second, hkeys, hpoint, hpoint'⟩ := exists_keys_demandOfBoth rival key
  have hsecond := cosigner?_second hne
  have hsupplied : ∀ signatures, (tx.withScript index (supplyScript (demandOfBoth rival key)
      signatures)).inputs[index]?
        = some { input with script := supplyScript (demandOfBoth rival key) signatures } :=
    fun _ => getElem?_withScript hinput _
  have hsame : ∀ script, (tx.withScript index script).digest index hashType
      (demandScript (demandOfBoth rival key)) = .ok digest :=
    fun _ => (digest_withScript _ _).trans hdigest
  constructor
  · have hbefore := signInput_of_unsigned hvalid hinput htype hdigest
      (cosigner?_first rival key) hempty
    have hown := PrivateKey.verifyDigest_of_signDigest (rival.signDigest_toList digest) hpoint
    have hafter := signInput_of_supplied hvalid (hsupplied _) htype (hsame _) hsecond
      (supplies_supplyScript _ [_]) Nat.one_lt_two hkeys (assignAll_of_first hown) rfl
    rw [signAll, List.foldlM_cons, bind_of_eq_ok hbefore, List.foldlM_cons, bind_of_eq_ok hafter]
    exact ⟨_, rfl⟩
  · have hbefore := signInput_of_unsigned hvalid hinput htype hdigest hsecond hempty
    intro tx' h
    rw [signAll, List.foldlM_cons, bind_of_eq_ok hbefore, List.foldlM_cons] at h
    obtain ⟨tx'', hafter, _⟩ := bind_eq_ok_iff.mp h
    rw [← PublicKey.verifyDigest_of_point_eq hpoint] at hverify
    exact signInput_of_rival hvalid hkeys (nodup_points hne hpoint hpoint') hpoint.symm
      (hsupplied _) (supplies_supplyScript _ _) (hsame _) hverify tx'' hafter

/-! ### The order of the signers -/

theorem matches_cosignatureBytes (h : Cosignable tx index hashType redeem publicKeys digest)
    (hsigners : Cosigners redeem publicKeys digest (key :: signers)) :
  (cosigned tx index redeem publicKeys digest hashType (key :: signers)).Matches index redeem
    (cosignatureBytes publicKeys digest hashType (key :: signers))
  := matches_of_verified h.valid h.hashType_lt h.decoded (h.digest_cosigned (key :: signers))
    (verified_cosignatures hsigners.sign)

/-- The signers of a demand may sign an input in any order: each of them succeeds, and in the end
the input has their signatures in the order of the keys. It spends an output that pays to the
hash of the demand exactly when there are as many signers as it demands, and nobody can sign it
any more then. Of each signer it is assumed that their signature of the digest is verified by no
other of the keys. -/
theorem signAll_in_any_order {required : Nat} {keys : List Bytes} {redeemScript : Script}
    {input : Input} (hredeem : Script.ofMultisigRedeem required keys = .ok redeemScript)
    (hkeys : keys.mapM (PublicKey.ofBytes · .mainnet) = .ok publicKeys)
    (hpoints : (publicKeys.map PublicKey.point).Nodup)
    (hinput : tx.inputs[index]? = some input) (hempty : input.script.bytes = [])
    (htype : hashType < 0x100) (hsecrets : (signers.map (·.secret)).Nodup)
    (hlisted : ∀ key ∈ signers,
      key.publicKey.toBytes false ∈ keys ∨ key.publicKey.toBytes true ∈ keys)
    (hcount : signers.length ≤ required)
    (hsign : ∀ digest, tx.digest index hashType redeemScript = .ok digest →
      ∀ key ∈ signers, key.SignsAlone publicKeys digest) :
  ∃ tx' digest, tx.digest index hashType redeemScript = .ok digest
    ∧ (∀ order : List PrivateKey, order.Perm signers →
      tx.signAll index hashType order redeemScript = .ok tx')
    ∧ (signers = [] → tx' = tx)
    ∧ (signers ≠ [] → ∃ script signatures, tx' = tx.withScript index script
      ∧ signatures = cosignatureBytes publicKeys digest hashType signers
      ∧ signatures.length = signers.length
      ∧ script.Supplies signatures redeemScript.bytes
      ∧ tx'.verifyPartially index (Script.payToScriptHash redeemScript.hash) = true)
    ∧ (tx'.verifyInput index (Script.payToScriptHash redeemScript.hash) = true
      ↔ signers.length = required)
    ∧ (signers.length = required → ∀ (hashType' : HashType) (key : PrivateKey), ∃ fault,
      tx'.signInput index hashType' key redeemScript = .error (.signing fault))
  := by
  obtain ⟨hvalid, hscript⟩ := Script.ofMultisigRedeem_eq_ok_iff.mp hredeem
  obtain rfl : redeemScript = demandScript ⟨required, keys⟩ := hscript
  obtain ⟨hindex, _⟩ := List.getElem?_eq_some_iff.mp hinput
  obtain ⟨digest, hdigest⟩ := exists_digest hvalid hindex hashType
  have h : Cosignable tx index hashType ⟨required, keys⟩ publicKeys digest :=
    ⟨hvalid, hkeys, hpoints, ⟨input, hinput, hempty⟩, htype, hdigest⟩
  have hsigners : Cosigners ⟨required, keys⟩ publicKeys digest signers :=
    ⟨hsecrets, fun key hkey => exists_cosigner? (hlisted key hkey), hcount, hsign digest hdigest⟩
  have hlength : (cosignatureBytes publicKeys digest hashType signers).length = signers.length :=
    length_cosignatureBytes h hsigners
  refine ⟨cosigned tx index ⟨required, keys⟩ publicKeys digest hashType signers, digest, hdigest,
    fun order horder => signAll_eq h hsigners horder, ?_, ?_, ?_, ?_⟩
  · rintro rfl
    rfl
  · intro hne
    cases signers with
    | nil => apply absurd rfl hne
    | cons key signers =>
      have hpos : cosignatureBytes publicKeys digest hashType (key :: signers) ≠ [] := by
        rw [← List.length_pos_iff, hlength]
        apply Nat.succ_pos _
      refine ⟨_, _, rfl, rfl, hlength, supplies_supplyScript _ _, ?_⟩
      apply verifyPartially_supply hvalid (getElem?_withScript hinput _) rfl hpos
        (hlength.trans_le hcount) (fun _ => ne_nil_of_mem_cosignatureBytes)
        (matches_cosignatureBytes h hsigners)
  · cases signers with
    | nil =>
      rw [cosigned, verifyInput_of_unsigned hinput hempty]
      have hrequired : required ≠ 0 := Nat.ne_of_gt hvalid.required_pos
      exact ⟨Bool.noConfusion, fun hzero => absurd hzero.symm hrequired⟩
    | cons key signers =>
      rw [← hlength]
      apply verifyInput_supply_iff hvalid (getElem?_withScript hinput _) rfl
        (hlength.trans_le hcount) (fun _ => ne_nil_of_mem_cosignatureBytes)
        (matches_cosignatureBytes h hsigners)
  · intro hcomplete hashType' other
    cases signers with
    | nil => apply absurd hcomplete.symm (Nat.ne_of_gt hvalid.required_pos)
    | cons key signers =>
      apply signInput_of_complete hvalid (getElem?_withScript hinput _) bytes_cosignedScript_ne_nil
        (multisigSignatures?_cosignedScript hvalid) rfl
        (Nat.le_of_eq (hlength.trans hcomplete).symm) hashType' other

/-- A transaction with one input that has not been signed, and no outputs. -/
def withoutOutputs : Transaction :=
  ⟨1, [⟨⟨FixedBytes.zero 32, 0⟩, .empty, 0⟩], [], 0⟩

/-- The digest of an input without an output of its own does not depend on the script. -/
theorem digest_withoutOutputs (script : Script) :
  withoutOutputs.digest 0 3 script = .ok missingOutputDigest
  := rfl

/-- Neither of two keys verifies the signature of the other. -/
theorem signsAlone_of_both {first second : PublicKey}
    (hpoint : first.point = keyOne.publicKey.point)
    (hpoint' : second.point = keyTwo.publicKey.point) :
  ∀ key ∈ [keyOne, keyTwo], key.SignsAlone [first, second] missingOutputDigest
  := by
  intro key hkey publicKey hpublicKey hverified
  rcases List.mem_pair.mp hkey with rfl | rfl
  · rcases List.mem_pair.mp hpublicKey with rfl | rfl
    · exact hpoint
    · rw [verifyDigest_keyTwo hpoint'] at hverified
      cases hverified
  · rcases List.mem_pair.mp hpublicKey with rfl | rfl
    · rw [verifyDigest_keyOne hpoint] at hverified
      cases hverified
    · exact hpoint'

/-- Two signers sign for a demand of both their signatures, in either order. -/
theorem signAll_in_any_order_both :
  ∃ (redeemScript : Script) (tx' : Transaction),
    Script.ofMultisigRedeem 2 ([keyOne, keyTwo].map (·.publicKey.toBytes true)) = .ok redeemScript
    ∧ withoutOutputs.signAll 0 3 [keyOne, keyTwo] redeemScript = .ok tx'
    ∧ withoutOutputs.signAll 0 3 [keyTwo, keyOne] redeemScript = .ok tx'
    ∧ tx'.verifyInput 0 (Script.payToScriptHash redeemScript.hash) = true
  := by
  have hvalid := valid_demandOfBoth keyOne keyTwo
  have hbuilt := Script.ofMultisigRedeem_eq_ok_iff.mpr ⟨hvalid, rfl⟩
  have hne : keyOne.secret ≠ keyTwo.secret := by decide
  have hlisted : ∀ key ∈ [keyOne, keyTwo],
      key.publicKey.toBytes false ∈ (demandOfBoth keyOne keyTwo).keys
        ∨ key.publicKey.toBytes true ∈ (demandOfBoth keyOne keyTwo).keys := by
    intro key hkey
    right
    exact List.mem_map_of_mem hkey
  have hsecrets : ([keyOne, keyTwo].map (·.secret)).Nodup := by simpa using hne
  obtain ⟨first, second, hkeys, hpoint, hpoint'⟩ := exists_keys_demandOfBoth keyOne keyTwo
  have halone : ∀ digest, withoutOutputs.digest 0 3 (demandScript (demandOfBoth keyOne keyTwo))
      = .ok digest → ∀ key ∈ [keyOne, keyTwo], key.SignsAlone [first, second] digest := by
    intro digest hdigest
    obtain rfl := Except.ok.inj ((digest_withoutOutputs _).symm.trans hdigest)
    exact signsAlone_of_both hpoint hpoint'
  obtain ⟨tx', _, _, hall, _, _, hspent, _⟩ :=
    signAll_in_any_order hbuilt hkeys (nodup_points hne hpoint hpoint') rfl rfl (by decide)
      hsecrets hlisted (Nat.le_refl 2) halone
  exact ⟨_, tx', hbuilt, hall [keyOne, keyTwo] (List.Perm.refl _),
    hall [keyTwo, keyOne] (List.Perm.swap keyOne keyTwo []), hspent.mpr rfl⟩

/-- A key that verifies the signature that `keyOne` makes of the digest without an output. -/
def keyRival : PrivateKey :=
  ⟨⟨64974084113236419954584828300217886054009811197025784190917560240572563860953, by decide⟩,
    .mainnet⟩

theorem verifyDigest_keyRival :
  keyRival.publicKey.verifyDigest missingOutputDigest.toList
    (Ecdsa.sign keyOne.secret missingOutputDigest) = true
  := by
  have hopposite : Ecdsa.digestScalar missingOutputDigest + firstOfKeyOne * keyRival.secret.val
      = -(Ecdsa.digestScalar missingOutputDigest + firstOfKeyOne * keyOne.secret.val) := by decide
  have hown := Ecdsa.verify_sign keyOne.secret missingOutputDigest
  rw [← r_sign_keyOne] at hopposite
  rw [← Ecdsa.toSecp_sign] at hown
  rw [PublicKey.verifyDigest_toList, PrivateKey.point_publicKey]
  apply Ecdsa.verify_of_opposite hopposite hown

/-- The order of the signers matters when one of them verifies the signature of another: each
of two keys signs, and verifies its own signature, but they can sign in one order only. Besides,
no script is written when nobody signs. -/
theorem signAll_fails_for_rival :
  ∃ (redeemScript : Script) (publicKeys : List PublicKey) (digest : FixedBytes 32),
    Script.ofMultisigRedeem 2 [keyRival.publicKey.toBytes true, keyOne.publicKey.toBytes true]
      = .ok redeemScript
    ∧ [keyRival.publicKey.toBytes true, keyOne.publicKey.toBytes true].mapM
      (PublicKey.ofBytes · .mainnet) = .ok publicKeys
    ∧ (publicKeys.map PublicKey.point).Nodup
    ∧ keyRival.secret ≠ keyOne.secret
    ∧ withoutOutputs.digest 0 3 redeemScript = .ok digest
    ∧ (∀ key ∈ [keyRival, keyOne], ∃ signature, key.signDigest digest.toList = .ok signature
      ∧ Ecdsa.verify key.publicKey.point digest signature = true)
    ∧ (∃ tx', withoutOutputs.signAll 0 3 [keyRival, keyOne] redeemScript = .ok tx')
    ∧ (∀ tx', withoutOutputs.signAll 0 3 [keyOne, keyRival] redeemScript ≠ .ok tx')
    ∧ withoutOutputs.signAll 0 3 [] redeemScript = .ok withoutOutputs
    ∧ ∀ input ∈ withoutOutputs.inputs, ¬ input.script.Supplies [] redeemScript.bytes
  := by
  have hne : keyRival.secret ≠ keyOne.secret := by decide
  have hbuilt := Script.ofMultisigRedeem_eq_ok_iff.mpr ⟨valid_demandOfBoth keyRival keyOne, rfl⟩
  obtain ⟨first, second, hkeys, hpoint, hpoint'⟩ := exists_keys_demandOfBoth keyRival keyOne
  obtain ⟨hbefore, hafter⟩ := @signAll_of_both withoutOutputs 0 3 missingOutputDigest keyOne
    keyRival _ hne rfl rfl (by decide) (digest_withoutOutputs _) verifyDigest_keyRival
  refine ⟨_, [first, second], missingOutputDigest, hbuilt, hkeys, nodup_points hne hpoint hpoint',
    hne, digest_withoutOutputs _, ?_, hbefore, hafter, rfl, ?_⟩
  · intro key _
    have hsigned := key.signDigest_toList missingOutputDigest
    exact ⟨_, hsigned, PrivateKey.verify_of_signDigest hsigned⟩
  · intro input hinput
    rw [List.mem_singleton.mp hinput]
    exact fun h => h.bytes_ne_nil rfl

end Transaction

end Bitcoin
