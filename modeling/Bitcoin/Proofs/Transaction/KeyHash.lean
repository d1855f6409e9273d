import Bitcoin.Proofs.Transaction.Spending

/-!
# Spending by a key

An output that pays to the hash of a key is spent by a signature and the key. The key is found to
have the hash, and the signature is then checked with it (`Step.runScript_payToKeyHash`). So an
input that was signed is valid (`Transaction.signInput_payToKeyHash`), whatever the hash type and
whatever was in the input before. Only if the bytes of the signature were the hash itself, another
script would be hashed, as pushes of the signature are removed from it.
-/

namespace Bitcoin

/-! ### The machine -/

namespace Step

variable {m : Machine} {stack : List Item} {spending : Spending} {subScript stripped : Script}
  {signature key : Bytes} {verified : Bool}

/-- An output that pays to the hash of the key on the stack checks the signature below it. -/
theorem runScript_payToKeyHash (hm : m.stopped = false)
    (hstack : m.stack = .bytes key :: .bytes signature :: stack)
    (hsize : m.size + 2 ≤ m.limits.stackSize)
    (hspending : m.spending? = some spending) (hscript : m.subScript? = some subScript)
    (hstripped : subScript.removePush signature = .ok stripped)
    (hverified : spending.checkSignature stripped signature key = .ok verified) :
  runScript (Script.payToKeyHash (Digest.hash160 key)) m
    = .ok () { m with stack := .truth verified :: stack }
  := by
  exact (completes_payToKeyHash_iff.mpr ⟨hm, hsize, .bytes key, .bytes signature, stack, spending,
    subScript, stripped, verified, hstack, rfl, hspending, hscript, hstripped, hverified, rfl⟩).1

end Step

/-! ### Signing -/

/-- The script that supplies a signature and a key. -/
def keySupply (signature key : Bytes) : Script :=
  .assembled (.flat [.push (.shortest signature), .push (.shortest key)])

namespace Transaction

variable {tx : Transaction} {index : Nat} {hashType : HashType} {key : PrivateKey}
  {compressed : Bool} {digest : FixedBytes 32} {signature : Signature}

theorem digest_keyHashScript (hash : FixedBytes 20) :
  tx.digest index hashType (keyHashScript hash)
    = tx.digest index hashType (Script.payToKeyHash hash)
  := by
  apply digest_congr
  rw [tokens_keyHashScript, tokens_payToKeyHash]

/-- A key takes part by a form that has the hash. -/
theorem roleIn_keyHashScript (key : PublicKey) (compressed : Bool) :
  ∃ form, key.hash form = key.hash compressed
    ∧ roleIn key (keyHashScript (key.hash compressed)) = .ok (.keyHash form)
  := by
  have hbytes := bytes_keyHashScript (key.hash compressed)
  have hnamed : (keyHashScript (key.hash compressed)).namedHash? = some (key.hash compressed) := by
    rw [Script.namedHash?, Script.keyHash?_eq_some_iff.mpr hbytes]
  rw [roleIn, Script.multisigRedeem?_of_bytes hbytes]
  dsimp only
  rw [hnamed]
  dsimp only
  by_cases h : key.hash true = key.hash compressed
  · exact ⟨true, h, if_pos h⟩
  · cases compressed with
    | true => apply absurd rfl h
    | false => exact ⟨false, rfl, (if_neg h).trans (if_pos rfl)⟩

/-- Signing for the hash of a key writes the signature and a form of the key with this hash. -/
theorem signedScript_payToKeyHash (hindex : index < tx.inputs.length) (htype : hashType < 0x100)
    (hdigest : tx.digest index hashType
      (Script.payToKeyHash (key.publicKey.hash compressed)) = .ok digest)
    (hsignature : key.signDigest digest.toList = .ok signature) :
  ∃ form, key.publicKey.hash form = key.publicKey.hash compressed
    ∧ tx.signedScript index hashType key (Script.payToKeyHash (key.publicKey.hash compressed))
      = .ok (keySupply (signatureBytes signature hashType.toUInt8) (key.publicKey.toBytes form))
  := by
  let hash := key.publicKey.hash compressed
  obtain ⟨form, hform, hrole⟩ := roleIn_keyHashScript key.publicKey compressed
  have hsupported : ¬ (!(Script.payToKeyHash hash).isMultisigRedeem
      && !(Script.payToKeyHash hash).isPayToKeyHash) = true := by
    rw [Script.isPayToKeyHash, Script.keyHash?_eq_some_iff.mpr rfl]
    simp
  have hsigned : tx.signatureFor index hashType key (keyHashScript hash)
      = .ok (signature, digest) := by
    rw [signatureFor, digest_keyHashScript, bind_of_eq_ok hdigest, bind_of_eq_ok hsignature]
  have hsignatureToken := Token.ofData_eq_ok_iff.mpr
    ⟨signatureBytes_ne_nil signature hashType.toUInt8, rfl⟩
  have hkeyBytes := PublicKey.readable_of_hasKeyForm (key.hasKeyForm_publicKey form)
  have hkeyToken := Token.ofData_eq_ok_iff.mpr ⟨hkeyBytes.2 rfl, rfl⟩
  use form, hform
  rw [signedScript, bind_of_eq_ok (checkInput_of_lt hindex), if_neg (UInt32.not_le.mpr htype),
    if_neg hsupported, bind_of_eq_ok (Script.removeOp_payToKeyHash hash)]
  dsimp only
  rw [bind_of_eq_ok hrole, bind_of_eq_ok hsigned]
  dsimp only
  rw [bind_of_eq_ok hsignatureToken, bind_of_eq_ok hkeyToken]
  apply Script.ofTokens_flat
  simp only [List.forall_mem_cons]
  exact ⟨rfl, rfl, List.forall_mem_nil _⟩

/-- A supply of a signature and a key is recognised. -/
theorem signatureAndKey?_keySupply (signature : Signature) (type : UInt8) {key : Bytes}
    (hkey : PublicKey.hasKeyForm key = true) :
  (keySupply (signatureBytes signature type) key).signatureAndKey?
    = some ⟨type, signature.toDer, key⟩
  := by
  have htokens : (keySupply (signatureBytes signature type) key).tokens
      = .ok [.push (.shortest (signatureBytes signature type)), .push (.shortest key)] :=
    congrArg Except.ok (Program.tokens_flat _)
  have hlast : (Push.shortest (signatureBytes signature type)).data.getLast? = some type :=
    List.getLast?_concat
  have hder : (Push.shortest (signatureBytes signature type)).data.dropLast = signature.toDer :=
    List.dropLast_concat
  have hforms : (PublicKey.hasKeyForm key && (Signature.ofDer signature.toDer).isOk) = true := by
    rw [hkey, Signature.ofDer_toDer]
    rfl
  rw [Script.signatureAndKey?, htokens, Except.toOption, Option.bind_eq_bind, Option.bind_some,
    Script.signatureAndKeyOfTokens?, hlast, hder]
  apply if_pos hforms

/-! ### Verifying -/

/-- A signature that the key verifies, along with the key, spends the output. -/
theorem verifyInput_keySupply {input : Input} {keyBytes : Bytes} {publicKey : PublicKey}
    (hinput : tx.inputs[index]? = some input)
    (hscript : input.script = keySupply (signatureBytes signature hashType.toUInt8) keyBytes)
    (htype : hashType < 0x100) (hkey : PublicKey.ofBytes keyBytes .mainnet = .ok publicKey)
    (hdigest : tx.digest index hashType
      (Script.payToKeyHash (Digest.hash160 keyBytes)) = .ok digest)
    (hverifies : publicKey.verifyDigest digest.toList signature = true)
    (hne : signatureBytes signature hashType.toUInt8 ≠ (Digest.hash160 keyBytes).toList) :
  tx.verifyInput index (Script.payToKeyHash (Digest.hash160 keyBytes)) = true
  := by
  obtain ⟨hindex, _⟩ := List.getElem?_eq_some_iff.mp hinput
  let bytes := signatureBytes signature hashType.toUInt8
  let outputScript := Script.payToKeyHash (Digest.hash160 keyBytes)
  let m : Machine := { Machine.initial with
    spending? := some ⟨tx, index, hindex⟩
    subScript? := some outputScript }
  have hmachine : Machine.forInput tx index outputScript = .ok m := dif_pos hindex
  have hsupply : Step.runScript input.script m
      = .ok () { m with stack := [.bytes keyBytes, .bytes bytes] } := by
    have hroom : 2 + 0 ≤ 1000 + 1 := by decide
    rw [hscript, Step.runScript_eq_run rfl rfl]
    exact Step.run_flat_pushes [.shortest bytes, .shortest keyBytes] rfl hroom
  have hchecked : Spending.checkSignature ⟨tx, index, hindex⟩
      (keyHashScript (Digest.hash160 keyBytes)) bytes keyBytes = .ok true := by
    rw [← hverifies]
    apply checkSignature_signatureBytes signature _ hkey
    rw [HashType.toUInt32_toUInt8 htype, ← hdigest]
    apply digest_keyHashScript
  have houtput : Step.runScript outputScript { m with stack := [.bytes keyBytes, .bytes bytes] }
      = .ok () { m with stack := [.truth true] } :=
    have hroom : 2 + 0 + 2 ≤ 1000 := by decide
    Step.runScript_payToKeyHash rfl rfl hroom rfl rfl
      (Script.removePush_payToKeyHash hne) hchecked
  rw [verifyInput, verify_eq_verdict hinput hmachine, Step.spend, Step.bind_of_ok hsupply,
    Script.isPayToScriptHash_payToKeyHash, if_neg Bool.false_ne_true, Step.bind_of_ok houtput]
  rfl

/-- An input that was signed for the hash of a key is valid. Signing replaces whatever was in the
input; what it writes is recognised as the signature and a form of the key with this hash. Where
the bytes of the signature are not the hash itself, they spend the output. -/
theorem signInput_payToKeyHash (hindex : index < tx.inputs.length)
    (htype : hashType < 0x100) :
  ∃ (digest : FixedBytes 32) (signature : Signature) (form : Bool) (script : Script),
    tx.digest index hashType (Script.payToKeyHash (key.publicKey.hash compressed)) = .ok digest
    ∧ key.signDigest digest.toList = .ok signature
    ∧ key.publicKey.verifyDigest digest.toList signature = true
    ∧ tx.signInput index hashType key (Script.payToKeyHash (key.publicKey.hash compressed))
      = .ok (tx.withScript index script)
    ∧ key.publicKey.hash form = key.publicKey.hash compressed
    ∧ script.signatureAndKey?
      = some ⟨hashType.toUInt8, signature.toDer, key.publicKey.toBytes form⟩
    ∧ (signatureBytes signature hashType.toUInt8 ≠ (key.publicKey.hash compressed).toList →
      (tx.withScript index script).verifyInput index
        (Script.payToKeyHash (key.publicKey.hash compressed)) = true)
  := by
  obtain ⟨digest, hdigest⟩ := exists_digest_of_removeOp hindex
    (Script.removeOp_payToKeyHash (key.publicKey.hash compressed)) hashType
  have hsignature := key.signDigest_toList digest
  obtain ⟨form, hform, hscript⟩ := signedScript_payToKeyHash hindex htype hdigest hsignature
  have hverifies := PrivateKey.verifyDigest_of_signDigest hsignature rfl
  refine ⟨digest, _, form, _, hdigest, hsignature, hverifies,
    signInput_eq_ok_iff.mpr ⟨_, hscript, rfl⟩, hform,
    signatureAndKey?_keySupply _ _ (key.hasKeyForm_publicKey form), ?_⟩
  rw [← hform] at hdigest ⊢
  intro hne
  apply verifyInput_keySupply (getElem?_withScript (List.getElem?_eq_getElem hindex) _) rfl htype
    (key.ofBytes_publicKey form .mainnet) ((digest_withScript tx _).trans hdigest) _ hne
  rw [PublicKey.verifyDigest_toList] at hverifies ⊢
  apply hverifies

/-- An input without an output of its own is signed for the hash of the generator, in place of the
script that it had. -/
theorem signInput_payToKeyHash_generator :
  let tx : Transaction := ⟨1, [⟨⟨FixedBytes.zero 32, 0⟩, .encoded [0x51], 0⟩], [], 0⟩
  let outputScript := Script.payToKeyHash (keyOne.publicKey.hash true)
  ∃ script, tx.signInput 0 3 keyOne outputScript = .ok (tx.withScript 0 script)
    ∧ script.isSignatureAndKey = true
    ∧ (tx.withScript 0 script).verifyInput 0 outputScript = true
  := by
  intro tx outputScript
  obtain ⟨_, signature, _, script, _, _, _, hsigned, _, hread, hvalid⟩ :=
    @signInput_payToKeyHash tx 0 3 keyOne true Nat.one_pos (by decide)
  refine ⟨script, hsigned, Option.isSome_of_eq_some hread, hvalid ?_⟩
  intro hbytes
  have hhead : (keyOne.publicKey.hash true).toList.head? ≠ some 0x30 := by decide +kernel
  apply hhead
  rw [← hbytes]
  rfl

end Transaction

end Bitcoin
