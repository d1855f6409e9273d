import Bitcoin.Proofs.Machine.Partial
import Bitcoin.Proofs.Transaction.Cosigning
import Bitcoin.Proofs.Transaction.Verdict

/-!
# Partial verification

An input that supplies signatures behind a script hash is run up to the script that it reveals in
the same way whether it is verified fully or partially (`Step.spend_found_eq_ok_true_iff`), and only
there the two part. As a partial check finds what a full one finds, whatever is valid is partially
valid; and where an input is partially valid, one of its signatures at least is good
(`Transaction.verifyPartially_justified`).
-/

namespace Bitcoin

/-- What a supply reveals is a valid demand. -/
theorem Script.exists_demand_of_multisigSignatures? {script : Script} {found : MultisigSignatures}
    (h : script.multisigSignatures? = some found) :
  ∃ demand : MultisigRedeem, demand.Valid ∧ found.redeem.multisigRedeem? = some demand
    ∧ found.redeem = .encoded (Token.encodeAll demand.tokens)
  := by
  obtain ⟨pushes, last, _, hdemand, rfl⟩ := multisigSignatures?_eq_some_iff.mp h
  obtain ⟨demand, hdemand⟩ := Option.isSome_iff_exists.mp hdemand
  obtain ⟨hvalid, hbytes⟩ := multisigRedeem?_eq_some_iff.mp hdemand
  exact ⟨demand, hvalid, hdemand, congrArg encoded hbytes⟩

namespace Step

variable {m m' : Machine} {hash : FixedBytes 20} {inputScript outputScript : Script}
  {found : MultisigSignatures} {spending : Spending} {subScript : Script}

theorem runPartially_eq_ok_true_iff {redeem : Script} {present : Nat} :
  runPartially redeem present m = .ok true m'
    ↔ runScript redeem { m with partialMultisig := true } = .ok () m'
      ∧ 0 < m'.matchCount ∧ m'.matchCount ≤ present
  := by
  rw [runPartially]
  change (runScript redeem >>= fun _ => _) { m with partialMultisig := true } = _ ↔ _
  rw [bind_eq_ok_iff]
  constructor
  · rintro ⟨_, m₁, hrun, hanswer⟩
    obtain ⟨hcount, rfl⟩ := EStateM.Result.ok.inj hanswer
    rw [Bool.and_eq_true, decide_eq_true_iff, decide_eq_true_iff] at hcount
    exact ⟨hrun, hcount⟩
  · rintro ⟨hrun, hcount⟩
    have hanswer : (decide (0 < m'.matchCount) && decide (m'.matchCount ≤ present)) = true := by
      rw [Bool.and_eq_true, decide_eq_true_iff, decide_eq_true_iff]
      exact hcount
    exact ⟨(), m', hrun, congrArg (EStateM.Result.ok · m') hanswer⟩

/-- Only behind a script hash, and only for a supply, does it matter whether an input is verified
partially. -/
theorem spend_partially_eq
    (h : outputScript.isPayToScriptHash = false ∨ inputScript.multisigSignatures? = none) :
  spend inputScript outputScript true = spend inputScript outputScript false
  := by
  rw [spend, spend]
  rcases h with h | h
  · rw [h]
    rfl
  · rw [h]

/-- A supply leaves its signatures below the script that it reveals. To spend an output that pays to
a script hash, there has to be room, the script has to have the hash, and it is then checked on the
signatures. -/
theorem spend_found_eq_ok_true_iff {partially : Bool} (hhash : outputScript.scriptHash? = some hash)
    (hfound : inputScript.multisigSignatures? = some found) (hm : m.stopped = false)
    (hstack : m.stack = []) :
  spend inputScript outputScript partially m = .ok true m'
    ↔ found.signatures.length + 2 + m.size < m.limits.stackSize ∧ found.redeem.hash = hash
      ∧ checkRevealed inputScript partially found.redeem (revealed m found) = .ok true m'
  := by
  have hsupplies := Script.supplies_of_multisigSignatures? hfound
  let m₁ : Machine := { m with stack := .bytes found.redeem.bytes :: supplied found.signatures }
  have hsize : m₁.size = found.signatures.length + 2 + m.size := by
    simp [m₁, Machine.size, supplied, hstack]
  have hredeem : Script.encoded found.redeem.bytes = found.redeem := by
    obtain ⟨_, _, _, hencoded⟩ := Script.exists_demand_of_multisigSignatures? hfound
    rw [hencoded]
    rfl
  rw [spend_scriptHash_eq_ok_true_iff hhash]
  constructor
  · rintro ⟨m₂, item, stack, ⟨hrun, hm₂⟩, hroom, hitem, hhash, hmet⟩
    have hroom₁ := room_of_runScript_of_supplies hsupplies hm hrun
    rw [runScript_of_supplies hsupplies hm hstack hroom₁] at hrun
    obtain ⟨_, rfl⟩ := EStateM.Result.ok.inj hrun
    obtain ⟨rfl, rfl⟩ := List.cons.inj hitem
    rw [← hsize]
    refine ⟨hroom, hhash, ?_⟩
    rw [Item.toBytes, hredeem] at hmet
    rw [revealed, hredeem]
    exact hmet
  · rintro ⟨hroom, hhash, hmet⟩
    have hrun := runScript_of_supplies hsupplies hm hstack (by omega)
    refine ⟨m₁, _, _, ⟨hrun, hm⟩, hsize.trans_lt hroom, rfl, hhash, ?_⟩
    rw [revealed, hredeem] at hmet
    rw [Item.toBytes, hredeem]
    exact hmet

theorem checkRevealed_true (hfound : inputScript.multisigSignatures? = some found)
    (redeem : Script) :
  checkRevealed inputScript true redeem = runPartially redeem found.signatures.length
  := by
  rw [checkRevealed, hfound]
  rfl

/-- A supply that spends an output fully also spends it partially. -/
theorem spend_partially_of_spend (hhash : outputScript.scriptHash? = some hash)
    (hfound : inputScript.multisigSignatures? = some found)
    (h : spend inputScript outputScript false (.ready spending subScript) = .ok true m') :
  ∃ m₁, spend inputScript outputScript true (.ready spending subScript) = .ok true m₁
  := by
  obtain ⟨demand, hvalid, _, hredeem⟩ := Script.exists_demand_of_multisigSignatures? hfound
  obtain ⟨hroom, hmatches, hmet⟩ := (spend_found_eq_ok_true_iff hhash hfound rfl rfl).mp h
  rw [checkRevealed_false] at hmet
  obtain ⟨⟨hrun, _⟩, htop⟩ := runFully_eq_ok_true_iff.mp hmet
  rw [hredeem] at hrun
  have hlimit : 1 ≤ Limits.standard.numberLength := by decide
  obtain ⟨hlt, m₁, hrun₁, hcount⟩ :=
    runScript_demand_partially hvalid rfl rfl rfl hlimit rfl hrun htop
  have hlength : (supplied found.signatures).length = found.signatures.length + 1 := by
    simp [supplied]
  have hle := Nat.le_of_lt_succ (hlt.trans_eq hlength)
  refine ⟨m₁, (spend_found_eq_ok_true_iff hhash hfound rfl rfl).mpr ⟨hroom, hmatches, ?_⟩⟩
  rw [checkRevealed_true hfound, runPartially_eq_ok_true_iff, hredeem, hcount]
  exact ⟨hrun₁, hvalid.required_pos, hle⟩

/-- A supply that spends an output partially has a signature that is good for a key. -/
theorem exists_signature_of_spend_partially (hhash : outputScript.scriptHash? = some hash)
    (hfound : inputScript.multisigSignatures? = some found)
    (h : spend inputScript outputScript true (.ready spending subScript) = .ok true m') :
  found.redeem.hash = hash ∧ ∃ demand signature key removed stripped,
    found.redeem.multisigRedeem? = some demand
    ∧ signature ∈ found.signatures ∧ key ∈ demand.keys ∧ removed ⊆ found.signatures
    ∧ found.redeem.removePushes removed = .ok stripped
    ∧ spending.transaction.Signed spending.index stripped signature key
  := by
  obtain ⟨demand, hvalid, hdemand, hredeem⟩ := Script.exists_demand_of_multisigSignatures? hfound
  obtain ⟨_, hmatches, hmet⟩ := (spend_found_eq_ok_true_iff hhash hfound rfl rfl).mp h
  rw [checkRevealed_true hfound, runPartially_eq_ok_true_iff] at hmet
  obtain ⟨hrun, hpos, _⟩ := hmet
  rw [hredeem] at hrun
  have hlimit : 1 ≤ Limits.standard.numberLength := by decide
  obtain ⟨removed, stripped, htaken, hstripped, signature, hsignature, key, hkey, hgood⟩ :=
    exists_signature_of_runScript_demand hvalid rfl rfl rfl hlimit rfl hrun hpos
  have hsubset : removed ⊆ found.signatures := by
    intro data hdata
    obtain ⟨hne, item, hitem, rfl⟩ := htaken data hdata
    rcases List.mem_append.mp hitem with hitem | hitem
    · obtain ⟨data, hmem, rfl⟩ := List.mem_map.mp hitem
      exact List.mem_reverse.mp hmem
    · obtain rfl := List.mem_singleton.mp hitem
      exact absurd rfl hne
  have hencoded : Script.encoded found.redeem.bytes = found.redeem := by
    rw [hredeem]
    rfl
  rw [hencoded] at hstripped
  exact ⟨hmatches, demand, signature, key, removed, stripped, hdemand, hsubset hsignature, hkey,
    hsubset, hstripped, Spending.checkSignature_eq_ok_true_iff.mp hgood⟩

end Step

namespace Transaction

variable {tx : Transaction} {index : Nat} {outputScript : Script}

theorem verify_partially_eq
    (h : outputScript.isPayToScriptHash = false ∨ ∀ input, tx.inputs[index]? = some input →
      input.script.isMultisigSignatures = false) :
  tx.verify index outputScript true = tx.verify index outputScript false
  := by
  cases hinput : tx.inputs[index]? with
  | none =>
    rw [verify, verify, hinput]
  | some input =>
    obtain ⟨hindex, _⟩ := List.getElem?_eq_some_iff.mp hinput
    have hmachine : Machine.forInput tx index outputScript
        = .ok (.ready ⟨tx, index, hindex⟩ outputScript) :=
      Machine.forInput_eq_ok_iff.mpr ⟨hindex, rfl⟩
    have hspend : Step.spend input.script outputScript true
        = Step.spend input.script outputScript false := by
      apply Step.spend_partially_eq
      apply h.imp_right
      intro hnone
      exact Option.not_isSome_iff_eq_none.mp (Bool.eq_false_iff.mp (hnone input hinput))
    rw [verify_eq_verdict hinput hmachine, verify_eq_verdict hinput hmachine, hspend]

/-- Whatever spends an output also spends it partially. The two differ only for a supply of
signatures that reveals a script, and there a partial verification is never vacuous: the script has
the hash that the output asks for, and one of the signatures is good for one of its keys. -/
theorem verifyPartially_justified (tx : Transaction) (index : Nat) (outputScript : Script) :
  (tx.verifyInput index outputScript = true → tx.verifyPartially index outputScript = true)
  ∧ (outputScript.isPayToScriptHash = false ∨ (∀ input, tx.inputs[index]? = some input →
      input.script.isMultisigSignatures = false) →
    tx.verifyPartially index outputScript = tx.verifyInput index outputScript)
  ∧ ∀ input found hash, tx.inputs[index]? = some input → outputScript.scriptHash? = some hash →
    input.script.multisigSignatures? = some found →
    tx.verifyPartially index outputScript = true →
    found.redeem.hash = hash ∧ ∃ demand signature key removed stripped,
      found.redeem.multisigRedeem? = some demand
      ∧ signature ∈ found.signatures ∧ key ∈ demand.keys ∧ removed ⊆ found.signatures
      ∧ found.redeem.removePushes removed = .ok stripped
      ∧ tx.Signed index stripped signature key
  := by
  have hsame : outputScript.isPayToScriptHash = false ∨ (∀ input, tx.inputs[index]? = some input →
      input.script.isMultisigSignatures = false) →
      tx.verifyPartially index outputScript = tx.verifyInput index outputScript := by
    intro h
    rw [verifyPartially, verifyInput, verify_partially_eq h]
  refine ⟨?_, hsame, ?_⟩
  · intro hvalid
    have hverify := toOption_getD_eq_true_iff.mp hvalid
    obtain ⟨input, m, m', hinput, hm, hspend⟩ := verify_eq_ok_true_iff.mp hverify
    obtain ⟨_, rfl⟩ := Machine.forInput_eq_ok_iff.mp hm
    cases hhash : outputScript.scriptHash? with
    | none =>
      rwa [hsame (.inl (congrArg Option.isSome hhash))]
    | some hash =>
      cases hfound : input.script.multisigSignatures? with
      | none =>
        rwa [hsame]
        right
        intro input' hinput'
        cases hinput.symm.trans hinput'
        exact congrArg Option.isSome hfound
      | some found =>
        obtain ⟨m₁, hpartially⟩ := Step.spend_partially_of_spend hhash hfound hspend
        exact toOption_getD_eq_true_iff.mpr (verify_eq_ok_true_iff.mpr
          ⟨input, _, m₁, hinput, hm, hpartially⟩)
  · intro input found hash hinput hhash hfound hvalid
    have hverify := toOption_getD_eq_true_iff.mp hvalid
    obtain ⟨input', m, m', hinput', hm, hspend⟩ := verify_eq_ok_true_iff.mp hverify
    obtain ⟨_, rfl⟩ := Machine.forInput_eq_ok_iff.mp hm
    cases hinput.symm.trans hinput'
    exact Step.exists_signature_of_spend_partially hhash hfound hspend

/-- The signature of the first of two keys that are demanded is enough for a partial verification
only. -/
theorem verify_first_of_both {input : Input} {hashType : HashType} {digest : FixedBytes 32}
    {first second : PrivateKey} {signature : Signature} (hinput : tx.inputs[index]? = some input)
    (hscript : input.script = .assembled (.flat (MultisigSignatures.mk
      [signatureBytes signature hashType.toUInt8]
      (demandScript (demandOfBoth first second))).tokens))
    (htype : hashType < 0x100)
    (hdigest : tx.digest index hashType (demandScript (demandOfBoth first second)) = .ok digest)
    (hsignature : first.signDigest digest.toList = .ok signature) :
  tx.verifyInput index (Script.payToScriptHash (demandScript (demandOfBoth first second)).hash)
      = false
    ∧ tx.verifyPartially index
      (Script.payToScriptHash (demandScript (demandOfBoth first second)).hash) = true
  := by
  have hvalid := valid_demandOfBoth first second
  have hgood : PublicKey.verifyDigest ⟨first.publicKey.point, .mainnet⟩ digest.toList signature
      = true := PrivateKey.verifyDigest_of_signDigest hsignature rfl
  have hmatches := matches_of_verified hvalid htype (mapM_keys_demandOfBoth first second) hdigest
    ((verified_empty _ digest).set (i := 0) rfl hgood)
  have hne : ∀ s ∈ [signatureBytes signature hashType.toUInt8], s ≠ [] := by
    intro s hs
    rw [List.mem_singleton.mp hs]
    apply signatureBytes_ne_nil
  constructor
  · apply Bool.eq_false_of_not_eq_true
    rw [verifyInput_supply_iff hvalid hinput hscript (Nat.le_succ 1) hne hmatches]
    exact Nat.succ_ne_self 1 ∘ Eq.symm
  · exact verifyPartially_supply hvalid hinput hscript (List.cons_ne_nil _ _) (Nat.le_succ 1) hne
      hmatches

/-- One signature where two are demanded is partially valid, and is good for the key. Without a
script hash, what is partially valid is what is valid. -/
theorem verifyPartially_justified_half :
  let key := keyOne.publicKey.toBytes true
  let outputScript := Script.payToScriptHash (demandScript (demandOfBoth keyOne keyOne)).hash
  ∃ (tx : Transaction) (stripped : Script) (signature : Bytes),
    tx.verifyInput 0 outputScript = false ∧ tx.verifyPartially 0 outputScript = true
    ∧ tx.Signed 0 stripped signature key
    ∧ withoutOutputs.verifyInput 0 (.encoded [0x51]) = true
    ∧ withoutOutputs.verifyPartially 0 (.encoded [0x51]) = true
    ∧ withoutOutputs.verifyPartially 0 .empty = withoutOutputs.verifyInput 0 .empty
  := by
  intro key outputScript
  have hvalid := valid_demandOfBoth keyOne keyOne
  have hsigned := keyOne.signDigest_toList missingOutputDigest
  generalize Ecdsa.sign keyOne.secret missingOutputDigest = signature at hsigned
  let supply : MultisigSignatures :=
    ⟨[signatureBytes signature 3], demandScript (demandOfBoth keyOne keyOne)⟩
  let tx := withoutOutputs.withScript 0 (.assembled (.flat supply.tokens))
  have hdigest : tx.digest 0 3 (demandScript (demandOfBoth keyOne keyOne))
      = .ok missingOutputDigest := (digest_withScript _ _).trans (digest_withoutOutputs _)
  obtain ⟨hhalf, hpartially⟩ :=
    @verify_first_of_both tx 0 _ 3 _ keyOne keyOne signature rfl rfl (by decide) hdigest hsigned
  have hhash : outputScript.scriptHash?
      = some (demandScript (demandOfBoth keyOne keyOne)).hash :=
    Script.scriptHash?_eq_some_iff.mpr rfl
  have hfound := @Script.multisigSignatures?_flat_tokens supply
    (isMultisigRedeem_demandScript hvalid)
  have htrue : withoutOutputs.verifyInput 0 (.encoded [0x51]) = true := by decide +kernel
  obtain ⟨_, _, hjustified⟩ := verifyPartially_justified tx 0 outputScript
  obtain ⟨himplied, _⟩ := verifyPartially_justified withoutOutputs 0 (.encoded [0x51])
  obtain ⟨_, hsame, _⟩ := verifyPartially_justified withoutOutputs 0 .empty
  obtain ⟨_, demand, bytes, key', _, stripped, hdemand, _, hkey, _, _, hgood⟩ :=
    hjustified _ _ _ rfl hhash hfound hpartially
  have hread : supply.redeem.multisigRedeem? = some (demandOfBoth keyOne keyOne) :=
    multisigRedeem?_demandScript hvalid
  have hredeem : demand = demandOfBoth keyOne keyOne := Option.some.inj (hdemand.symm.trans hread)
  have hkey' : key' = key := by
    rw [hredeem] at hkey
    exact (List.mem_pair.mp hkey).elim id id
  rw [hkey'] at hgood
  exact ⟨tx, stripped, bytes, hhalf, hpartially, hgood, htrue, himplied htrue, hsame (.inl rfl)⟩

end Transaction

end Bitcoin
