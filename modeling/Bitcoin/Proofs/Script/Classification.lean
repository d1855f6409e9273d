import Bitcoin.Proofs.Script.Recognition
import Bitcoin.Proofs.Script.Standard
import Bitcoin.Proofs.Signature.Der

/-!
# The forms of standard scripts

Some forms of script are recognised by bytes and others by tokens. `Form.Shows` lists what tokens
a script of a form has the bytes of. They tell the forms apart, so that a script has at most one of
them, whether or not it can be built (`Script.form_eq_of_hasForm`). Hence it does not matter in
which order the forms are tried, and the hash that a script names is that of the last of its
addresses (`Script.form_unique_and_addresses_agree`).
-/

namespace Bitcoin

namespace Script

/-- The forms of standard scripts. -/
inductive Form where
  /-- An output that pays to the hash of a key. -/
  | payToKeyHash
  /-- An output that pays to the hash of a script. -/
  | payToScriptHash
  /-- An output that pays to a key. -/
  | payToKey
  /-- A demand for several signatures. -/
  | multisigRedeem
  /-- A supply of several signatures. -/
  | multisigSignatures
  /-- A supply of a signature and a key. -/
  | signatureAndKey
deriving DecidableEq

/-- Whether a script is recognised to have a form. -/
def hasForm (script : Script) : Form → Bool
  | .payToKeyHash => script.isPayToKeyHash
  | .payToScriptHash => script.isPayToScriptHash
  | .payToKey => script.fits [.data, .op .checkSig]
  | .multisigRedeem => script.isMultisigRedeem
  | .multisigSignatures => script.isMultisigSignatures
  | .signatureAndKey => script.isSignatureAndKey

/-! ### The tokens of a form -/

/-- Whether tokens show a form. A signature has at most 72 bytes and its hash type one more. -/
inductive Form.Shows : Form → List Token → Prop where
  | payToKeyHash (hash : FixedBytes 20) : Shows .payToKeyHash (keyHashTokens hash)
  | payToScriptHash (hash : FixedBytes 20) : Shows .payToScriptHash (scriptHashTokens hash)
  | payToKey (key : Push) : Shows .payToKey [.push key, .op .checkSig]
  | multisigRedeem {redeem : MultisigRedeem} (valid : redeem.Valid) :
      Shows .multisigRedeem redeem.tokens
  | multisigSignatures (pushes : List Push) (last : Push) :
      Shows .multisigSignatures (.op .zero :: (pushes.map .push ++ [.push last]))
  | signatureAndKey {signature : Push} (key : Push) (short : signature.data.length ≤ 73) :
      Shows .signatureAndKey [.push signature, .push key]

/-- The form that tokens show if it is not that of a demand. The first token tells it, and the
second one if the first is a push. -/
def Form.ofTokens? : List Token → Option Form
  | .op .dup :: _ => some .payToKeyHash
  | .op .hash160 :: _ => some .payToScriptHash
  | .op .zero :: _ => some .multisigSignatures
  | .push _ :: .op _ :: _ => some .payToKey
  | .push _ :: .push _ :: _ => some .signatureAndKey
  | _ => none

/-- Tokens that show a form are recognised as of this form. -/
theorem Form.Shows.ofTokens? {form : Form} {ts : List Token} (h : form.Shows ts)
    (hform : form ≠ .multisigRedeem) :
  Form.ofTokens? ts = some form
  := by
  cases h with
  | multisigRedeem valid => exact absurd rfl hform
  | _ => rfl

/-- The first byte of a demand stands for a number. -/
theorem countOfByte?_head_of_valid {redeem : MultisigRedeem} (h : redeem.Valid) {byte : UInt8}
    {rest : Bytes} (hbytes : Token.encodeAll redeem.tokens = byte :: rest) :
  countOfByte? byte = some redeem.required
  := by
  rw [encodeAll_redeemTokens] at hbytes
  obtain ⟨rfl, _⟩ := List.cons.inj hbytes
  apply countOfByte?_eq_some_iff.mpr
  exact ⟨h.required_pos, le_trans h.required_le h.keys_le, rfl⟩

/-- The byte of a length up to 80 stands for no number. -/
theorem countOfByte?_of_le {length : Nat} (h : length ≤ 80) :
  countOfByte? (UInt8.ofNat length) = none
  := by
  rw [Option.eq_none_iff_forall_ne_some]
  intro n hn
  obtain ⟨hpos, hle, hbyte⟩ := countOfByte?_eq_some_iff.mp hn
  rw [toByte_countOpcode hpos hle] at hbyte
  have e := congrArg UInt8.toNat hbyte
  rw [UInt8.toNat_ofNat', UInt8.toNat_ofNat'] at e
  omega

/-- The first byte of a push of little data stands for no number. -/
theorem exists_head_of_short {p : Push} (h : p.data.length ≤ 80) :
  ∃ byte rest, p.encode = byte :: rest ∧ countOfByte? byte = none
  := by
  obtain ⟨kind, data⟩ := p
  cases kind with
  | inline => exact ⟨_, _, rfl, countOfByte?_of_le h⟩
  | data1 | data2 | data4 => exact ⟨_, _, rfl, rfl⟩

/-- Tokens with the bytes of a demand show no other form, since these begin or end otherwise. -/
theorem Form.Shows.eq_multisigRedeem {a b : Form} {ts us : List Token} (ha : a.Shows ts)
    (hb : b.Shows us) (hbytes : Token.encodeAll ts = Token.encodeAll us)
    (h : a = .multisigRedeem) :
  b = .multisigRedeem
  := by
  subst h
  cases ha with
  | multisigRedeem valid =>
    cases hb with
    | multisigRedeem _ => rfl
    | payToKeyHash hash => cases countOfByte?_head_of_valid valid hbytes
    | payToScriptHash hash => cases countOfByte?_head_of_valid valid hbytes
    | multisigSignatures pushes last => cases countOfByte?_head_of_valid valid hbytes
    | signatureAndKey key short =>
      obtain ⟨byte, rest, hfirst, hcount⟩ := exists_head_of_short (le_trans short (by decide))
      rw [Token.encodeAll_cons, Token.encode, hfirst, List.cons_append] at hbytes
      rw [countOfByte?_head_of_valid valid hbytes] at hcount
      cases hcount
    | payToKey key =>
      have hlast := congrArg List.getLast? hbytes
      rw [encodeAll_redeemTokens, ← List.cons_append, List.getLast?_append, Token.encodeAll_cons,
        Token.encodeAll_cons, List.getLast?_append] at hlast
      cases hlast

/-! ### Recognition -/

variable {script : Script}

/-- Paying to a key takes one push and a check. -/
theorem fits_payToKey_iff :
  script.fits [.data, .op .checkSig] = true
    ↔ ∃ key : Push, script.tokens = .ok [.push key, .op .checkSig]
  := by
  constructor
  · intro h
    rw [fits] at h
    split at h
    · cases h
    · next ts hts =>
      rw [Bool.and_eq_true, beq_iff_eq] at h
      obtain ⟨hlength, hall⟩ := h
      match ts, hlength with
      | [.push key, .op o], _ =>
        obtain rfl : Opcode.checkSig = o := by simpa [Placeholder.accepts] using hall
        exact ⟨key, hts⟩
      | [.push _, .push _], _ => simp [Placeholder.accepts] at hall
      | [.op _, _], _ => simp [Placeholder.accepts] at hall
  · rintro ⟨key, hts⟩
    rw [fits, hts]
    rfl

/-- The encoding of a signature has at most 72 bytes. -/
theorem length_le_of_isOk_ofDer {bytes : Bytes} (h : (Signature.ofDer bytes).isOk = true) :
  bytes.length ≤ 72
  := by
  cases hread : Signature.ofDer bytes with
  | error e =>
    rw [hread] at h
    cases h
  | ok signature =>
    obtain ⟨rfl, _⟩ := Signature.ofDer_eq_ok_iff.mp hread
    have hr := Signature.length_integerBytes_le signature.r
    have hs := Signature.length_integerBytes_le signature.s
    rw [Signature.length_toDer]
    omega

/-- A signature and a key are two pushes, of which the first is short. -/
theorem exists_tokens_of_signatureAndKey? {found : SignatureAndKey}
    (h : script.signatureAndKey? = some found) :
  ∃ signature key : Push, script.tokens = .ok [.push signature, .push key]
    ∧ signature.data.length ≤ 73
  := by
  rw [signatureAndKey?] at h
  cases hts : script.tokens with
  | error e =>
    rw [hts] at h
    cases h
  | ok ts =>
    rw [hts] at h
    change signatureAndKeyOfTokens? ts = _ at h
    rw [signatureAndKeyOfTokens?.eq_def] at h
    split at h
    · next signature key =>
      obtain ⟨hashType, _, h⟩ := Option.bind_eq_some_iff.mp h
      dsimp only at h
      split at h
      · next hforms =>
        have hder := length_le_of_isOk_ofDer (Bool.and_eq_true _ _ ▸ hforms).2
        rw [List.length_dropLast] at hder
        exact ⟨signature, key, rfl, by omega⟩
      · cases h
    · cases h

/-- What is recognised to have a form has the bytes of tokens that show it, and unless it is a
demand these are its tokens. -/
theorem exists_shows_of_hasForm {form : Form} (h : script.hasForm form = true) :
  ∃ ts, form.Shows ts ∧ script.bytes = Token.encodeAll ts
    ∧ (form ≠ .multisigRedeem → script.tokens = .ok ts)
  := by
  have hshown : ∀ {ts}, form.Shows ts → script.tokens = .ok ts → ∃ ts, form.Shows ts
      ∧ script.bytes = Token.encodeAll ts ∧ (form ≠ .multisigRedeem → script.tokens = .ok ts) :=
    fun hts htokens => ⟨_, hts, bytes_of_tokens htokens, fun _ => htokens⟩
  cases form with
  | payToKeyHash =>
    obtain ⟨hash, hhash⟩ := Option.isSome_iff_exists.mp h
    apply hshown (.payToKeyHash hash)
    exact tokens_eq_ok_iff.mpr ⟨_, program_of_keyHash? hhash, Program.tokens_flat _⟩
  | payToScriptHash =>
    obtain ⟨hash, hhash⟩ := Option.isSome_iff_exists.mp h
    apply hshown (.payToScriptHash hash)
    exact tokens_eq_ok_iff.mpr ⟨_, program_of_scriptHash? hhash, Program.tokens_flat _⟩
  | payToKey =>
    obtain ⟨key, htokens⟩ := fits_payToKey_iff.mp h
    exact hshown (.payToKey key) htokens
  | multisigRedeem =>
    obtain ⟨redeem, hredeem⟩ := Option.isSome_iff_exists.mp h
    obtain ⟨hvalid, hbytes⟩ := multisigRedeem?_eq_some_iff.mp hredeem
    exact ⟨_, .multisigRedeem hvalid, hbytes, fun hform => absurd rfl hform⟩
  | multisigSignatures =>
    obtain ⟨found, hfound⟩ := Option.isSome_iff_exists.mp h
    obtain ⟨pushes, last, htokens, _⟩ := multisigSignatures?_eq_some_iff.mp hfound
    exact hshown (.multisigSignatures pushes last) htokens
  | signatureAndKey =>
    obtain ⟨found, hfound⟩ := Option.isSome_iff_exists.mp h
    obtain ⟨signature, key, htokens, hshort⟩ := exists_tokens_of_signatureAndKey? hfound
    exact hshown (.signatureAndKey key hshort) htokens

/-- No script has two forms. -/
theorem form_eq_of_hasForm {a b : Form} (ha : script.hasForm a = true)
    (hb : script.hasForm b = true) :
  a = b
  := by
  obtain ⟨ts, hats, habytes, hatokens⟩ := exists_shows_of_hasForm ha
  obtain ⟨us, hbus, hbbytes, hbtokens⟩ := exists_shows_of_hasForm hb
  have hbytes : Token.encodeAll ts = Token.encodeAll us := habytes.symm.trans hbbytes
  by_cases hdemand : a = .multisigRedeem
  · rw [hdemand, hats.eq_multisigRedeem hbus hbytes hdemand]
  · have hother : b ≠ .multisigRedeem :=
      fun h => hdemand (hbus.eq_multisigRedeem hats hbytes.symm h)
    obtain rfl : ts = us := Except.ok.inj ((hatokens hdemand).symm.trans (hbtokens hother))
    have hform := hbus.ofTokens? hother
    rw [hats.ofTokens? hdemand] at hform
    apply Option.some.inj hform

/-- A script with one form is not recognised to have another one. -/
theorem hasForm_eq_false {a : Form} (ha : script.hasForm a = true) (b : Form) (hne : a ≠ b) :
  script.hasForm b = false
  := by
  rw [Bool.eq_false_iff]
  exact fun hb => hne (form_eq_of_hasForm ha hb)

/-! ### Addresses -/

/-- The version byte of the address of the hash that a script names. -/
def namedVersion (script : Script) (network : Network) : UInt8 :=
  if script.isPayToScriptHash || script.isMultisigSignatures then network.scriptHashVersion
  else network.keyHashVersion

/-- The hash that a script names is that of the last of its addresses. -/
theorem getLast?_addresses {hash : FixedBytes 20} (h : script.namedHash? = some hash)
    (network : Network) :
  (script.addresses network).getLast?
    = some (Address.encodeHash (script.namedVersion network) hash)
  := by
  rw [namedHash?] at h
  rw [addresses, namedVersion]
  split at h
  · next found hkey =>
    cases h
    have hform : script.hasForm .payToKeyHash = true := Option.isSome_of_eq_some hkey
    have hscript : script.isPayToScriptHash = false :=
      hasForm_eq_false hform .payToScriptHash (by decide)
    have hsupply : script.isMultisigSignatures = false :=
      hasForm_eq_false hform .multisigSignatures (by decide)
    rw [hscript, hsupply]
    rfl
  · next hkey =>
    split at h
    · next found hscript =>
      cases h
      rw [isPayToScriptHash, hscript]
      rfl
    · next hscript =>
      rw [isPayToScriptHash, hscript, isMultisigSignatures]
      split at h
      · next found hsupply =>
        cases h
        rw [hsupply]
        apply List.getLast?_concat
      · next hsupply =>
        obtain ⟨found, hfound, rfl⟩ := Option.map_eq_some_iff.mp h
        rw [hsupply, hfound]
        rfl

/-- A supply of signatures pays to no hash. -/
theorem hashes_of_multisigSignatures? {found : MultisigSignatures}
    (h : script.multisigSignatures? = some found) :
  script.keyHash? = none ∧ script.scriptHash? = none
  := by
  have hform : script.hasForm .multisigSignatures = true := Option.isSome_of_eq_some h
  have hkey := hasForm_eq_false hform .payToKeyHash (by decide)
  have hscript := hasForm_eq_false hform .payToScriptHash (by decide)
  exact ⟨Option.not_isSome_iff_eq_none.mp (Bool.eq_false_iff.mp hkey),
    Option.not_isSome_iff_eq_none.mp (Bool.eq_false_iff.mp hscript)⟩

/-- A supply of signatures has the addresses of the keys of the demand, and last that of the
demand. -/
theorem addresses_of_multisigSignatures {found : MultisigSignatures}
    (h : script.multisigSignatures = .ok found) (network : Network) :
  ∃ demand, found.redeem.multisigRedeem = .ok demand
    ∧ script.addresses network
      = demand.keys.map (keyAddress network) ++ [found.redeem.address network]
  := by
  have hfound := multisigSignatures_eq_ok_iff.mp h
  obtain ⟨hkey, hscript⟩ := hashes_of_multisigSignatures? hfound
  obtain ⟨_, _, _, hredeem, rfl⟩ := multisigSignatures?_eq_some_iff.mp hfound
  obtain ⟨demand, hdemand⟩ := Option.isSome_iff_exists.mp hredeem
  refine ⟨demand, multisigRedeem_eq_ok_iff.mpr hdemand, ?_⟩
  rw [addresses, hkey, hscript, hfound]
  dsimp only
  rw [hdemand]
  rfl

/-- A script has at most one of the standard forms. If it names a hash, then the last of its
addresses is that of the hash, of the kind of script hashes exactly if the script pays to a script
hash or supplies several signatures. A supply for so many keys has one address more than these. -/
theorem form_unique_and_addresses_agree (script : Script) :
  (∀ a b, script.hasForm a = true → script.hasForm b = true → a = b)
    ∧ (∀ (network : Network) (hash : FixedBytes 20), script.namedHash? = some hash →
      (script.addresses network).getLast?
        = some (Address.encodeHash (script.namedVersion network) hash))
    ∧ ∀ (network : Network) (found : MultisigSignatures),
      script.multisigSignatures = .ok found →
      ∃ demand, found.redeem.multisigRedeem = .ok demand
        ∧ (script.addresses network).length = demand.keys.length + 1
  := by
  refine ⟨fun _ _ => form_eq_of_hasForm, fun network hash h => getLast?_addresses h network, ?_⟩
  intro network found h
  obtain ⟨demand, hdemand, haddresses⟩ := addresses_of_multisigSignatures h network
  refine ⟨demand, hdemand, ?_⟩
  rw [haddresses, List.length_append, List.length_map]
  rfl

/-- The supply of one signature to a demand by two keys. -/
theorem form_unique_and_addresses_agree_supply :
  let key : Bytes := 0x02 :: List.replicate 32 0x07
  let redeem := encoded (Token.encodeAll (MultisigRedeem.mk 1 [key, key]).tokens)
  let script := assembled (.flat (MultisigSignatures.mk [[0x30]] redeem).tokens)
  script.hasForm .multisigSignatures = true
    ∧ script.hasForm .signatureAndKey = false
    ∧ script.namedHash? = some redeem.hash
    ∧ (script.addresses .mainnet).getLast?
      = some (Address.encodeHash Network.mainnet.scriptHashVersion redeem.hash)
    ∧ (script.addresses .testnet).length = 3
  := by
  intro key redeem script
  obtain ⟨hunique, hlast, hlength⟩ := form_unique_and_addresses_agree script
  have hvalid : (MultisigRedeem.mk 1 [key, key]).Valid :=
    ⟨by decide, by decide, by decide, by decide⟩
  have hdemand : redeem.multisigRedeem? = some ⟨1, [key, key]⟩ :=
    multisigRedeem?_eq_some_iff.mpr ⟨hvalid, rfl⟩
  have hfound : script.multisigSignatures? = some ⟨[[0x30]], redeem⟩ :=
    @multisigSignatures?_flat_tokens ⟨_, redeem⟩ (Option.isSome_of_eq_some hdemand)
  have hform : script.hasForm .multisigSignatures = true := Option.isSome_of_eq_some hfound
  have hnamed : script.namedHash? = some redeem.hash := by
    obtain ⟨hkey, hscript⟩ := hashes_of_multisigSignatures? hfound
    rw [namedHash?, hkey, hscript, hfound]
  have hversion : script.namedVersion .mainnet = Network.mainnet.scriptHashVersion :=
    if_pos (Bool.or_eq_true_iff.mpr (.inr hform))
  refine ⟨hform, ?_, hnamed, hversion ▸ hlast .mainnet _ hnamed, ?_⟩
  · rw [Bool.eq_false_iff]
    intro hother
    cases hunique _ _ hform hother
  · obtain ⟨demand, hfound', hlength⟩ :=
      hlength .testnet _ (multisigSignatures_eq_ok_iff.mpr hfound)
    obtain rfl : MultisigRedeem.mk 1 [key, key] = demand :=
      Option.some.inj (hdemand.symm.trans (multisigRedeem_eq_ok_iff.mp hfound'))
    exact hlength

end Script

end Bitcoin
