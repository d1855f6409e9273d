import Bitcoin.Proofs.Machine.Multisig
import Bitcoin.Proofs.Machine.Output
import Bitcoin.Proofs.Script.Standard
import Bitcoin.Proofs.Script.Supply
import Bitcoin.Proofs.Transaction.Merging
import Bitcoin.Transaction.Verification

/-!
# Spending by several signatures

An output that pays to the hash of a demand for signatures is spent by a supply of them. The
supply leaves the signatures and the revealed script on the stack, the output finds the
script to be the right one, and the script itself then checks the signatures.
-/

namespace Bitcoin

namespace Step

variable {m m' : Machine} {stack : List Item}

/-- An output that pays to the hash of the data on the stack finds it to be right. -/
theorem runScript_payToScriptHash {data : Bytes} (hm : m.stopped = false)
    (hstack : m.stack = .bytes data :: stack) (hsize : m.size < m.limits.stackSize) :
  runScript (Script.payToScriptHash (Digest.hash160 data)) m
    = .ok () { m with stack := .truth true :: stack }
  := by
  have hcompletes : Completes (runScript (Script.payToScriptHash (Digest.hash160 data))) m { m with
      stack := .truth ((Digest.hash160 data).toList == (Digest.hash160 data).toList) :: stack } :=
    (completes_payToScriptHash_iff (program_payToScriptHash _)).mpr
      ⟨hm, hsize, .bytes data, stack, hstack, rfl⟩
  rw [beq_self_eq_true] at hcompletes
  exact hcompletes.1

/-! ### The supply and the output -/

variable {supply : MultisigSignatures} {redeem : MultisigRedeem}

/-- What a supply leaves on the stack below the script that it reveals. -/
def supplied (signatures : List Bytes) : List Item :=
  signatures.reverse.map .bytes ++ [.bytes []]

/-- A supply pushes an empty item and the signatures, and then the script that it reveals. -/
theorem exists_pushes_of_supplies {script : Script} {signatures : List Bytes} {demand : Bytes}
    (h : script.Supplies signatures demand) :
  ∃ ts items last, script.program = .ok (.flat (ts ++ [.push last]))
    ∧ List.Forall₂ Token.Pushes ts items ∧ ts.length = signatures.length + 1
    ∧ items.reverse = supplied signatures ∧ last.data = demand
  := by
  obtain ⟨pushes, last, htokens, rfl, rfl⟩ := h
  have hflat : ∀ t ∈ .op .zero :: (pushes.map .push ++ [.push last]),
      Token.isDelimiter t = false := by
    simp only [List.forall_mem_cons, List.forall_mem_append, List.forall_mem_map]
    exact ⟨rfl, fun _ _ => rfl, rfl, List.forall_mem_nil _⟩
  have hzero : (Token.op .zero).Pushes (.bytes []) := .constant rfl
  refine ⟨_, _, last, Script.program_of_tokens hflat htokens, .cons hzero (forall₂_pushes pushes),
    ?_, ?_, rfl⟩
  · simp
  · simp [supplied]

/-- A supply leaves the demand on top of its signatures, and an empty item below them. -/
theorem runScript_of_supplies {script : Script} {signatures : List Bytes} {demand : Bytes}
    (h : script.Supplies signatures demand) (hm : m.stopped = false) (hstack : m.stack = [])
    (hsize : signatures.length + 1 + m.size ≤ m.limits.stackSize) :
  runScript script m = .ok () { m with stack := .bytes demand :: supplied signatures }
  := by
  obtain ⟨ts, items, last, hprogram, hts, hlength, hitems, rfl⟩ := exists_pushes_of_supplies h
  have hall := List.rel_append hts (.cons (.data last) .nil)
  have hroom : (ts ++ [Token.push last]).length + m.size ≤ m.limits.stackSize + 1 := by
    rw [List.length_append, List.length_singleton]
    omega
  rw [runScript_eq_run hm hprogram, ← List.append_nil (ts ++ [Token.push last]),
    run_flat_constants hall hm hroom, run_flat_nil, List.reverse_append, hitems, hstack]
  simp

theorem room_of_runScript_of_supplies {script : Script} {signatures : List Bytes} {demand : Bytes}
    (h : script.Supplies signatures demand) (hm : m.stopped = false)
    (hrun : runScript script m = .ok () m') :
  signatures.length + 1 + m.size ≤ m.limits.stackSize
  := by
  obtain ⟨ts, items, last, hprogram, hts, hlength, _, _⟩ := exists_pushes_of_supplies h
  rw [runScript_eq_run hm hprogram] at hrun
  rw [← hlength]
  apply room_of_run_flat_constants hts hm hrun

/-- The machine that goes on to check the signatures of a supply. -/
def revealed (m : Machine) (supply : MultisigSignatures) : Machine :=
  { m with
    stack := supplied supply.signatures
    savedStack := none
    subScript? := some (.encoded supply.redeem.bytes) }

/-- Spending an output that pays to the hash of a demand comes down to the demand. -/
theorem spend_supply (hredeem : supply.redeem.isMultisigRedeem = true) (hm : m.stopped = false)
    (hstack : m.stack = [])
    (hsize : supply.signatures.length + 2 + m.size < m.limits.stackSize) (partially : Bool) :
  spend (.assembled (.flat supply.tokens)) (Script.payToScriptHash supply.redeem.hash) partially m
    = (if partially then runPartially (.encoded supply.redeem.bytes) supply.signatures.length
        else runFully (.encoded supply.redeem.bytes)) (revealed m supply)
  := by
  let m₁ : Machine := { m with stack := .bytes supply.redeem.bytes :: supplied supply.signatures }
  let m₂ : Machine := { m₁ with savedStack := some m₁.stack }
  let m₃ : Machine := { m₂ with stack := .truth true :: supplied supply.signatures }
  have hm₂ : m₂.stopped = false := hm
  have hsize₂ : m₂.size < m₂.limits.stackSize := by
    have hlength : m₂.stack.length = supply.signatures.length + 2 := by simp [m₂, m₁, supplied]
    have hempty : m.size = m₂.altStack.length := by
      rw [Machine.size, hstack]
      apply Nat.zero_add _
    rw [Machine.size, hlength, ← hempty]
    apply hsize
  have houtput : runScript (Script.payToScriptHash supply.redeem.hash) m₂ = .ok () m₃ :=
    runScript_payToScriptHash hm₂ rfl hsize₂
  have hsave : saveStack m₁ = .ok () m₂ := rfl
  have hvalid : isValid m₃ = .ok true m₃ := by
    have hm₃ : m₃.valid = true := by
      rw [Machine.valid]
      change (!m.stopped && true) = true
      rw [hm]
      rfl
    change EStateM.Result.ok m₃.valid m₃ = _
    rw [hm₃]
  have hreveal : revealScript m₃ = .ok (.encoded supply.redeem.bytes) (revealed m supply) := rfl
  rw [spend, bind_of_ok (runScript_of_supplies (Script.supplies_flat_tokens supply) hm hstack
      (by omega)),
    if_pos (isPayToScriptHash_payToScriptHash _), bind_of_ok hsave, bind_of_ok houtput,
    bind_of_ok hvalid, bind_of_ok hreveal, Script.multisigSignatures?_flat_tokens hredeem]
  dsimp only
  simp only [Bool.true_and, bind_pure]

end Step

/-! ### The revealed script -/

/-- Whether a machine is about to run a demand for signatures, above the signatures of its
supply. -/
structure Machine.Supplied (redeem : MultisigRedeem) (spending : Spending) (signatures : List Bytes)
    (m : Machine) : Prop where
  running : m.stopped = false
  room : redeem.keys.length + 3 + m.size ≤ m.limits.stackSize
  number : 1 ≤ m.limits.numberLength
  spending : m.spending? = some spending
  script : m.subScript? = some (.encoded (Token.encodeAll redeem.tokens))
  stack : m.stack = Step.supplied signatures

namespace Step

variable {m : Machine} {redeem : MultisigRedeem} {spending : Spending} {signatures : List Bytes}

/-- The machine when a demand has pushed its keys and its numbers. -/
def demanding (m : Machine) (redeem : MultisigRedeem) (signatures : List Bytes) : Machine :=
  { m with stack := beforeCheck redeem.keys redeem.required (supplied signatures) }

/-- A demand goes on the stack and is then checked. -/
theorem runScript_demand (hvalid : redeem.Valid) (hm : m.Supplied redeem spending signatures) :
  runScript (.encoded (Token.encodeAll redeem.tokens)) m
    = (Program.flat [.op .checkMultisig]).run 1 (demanding m redeem signatures)
  := by
  have hprogram := Script.program_encoded_flat
    (fun t ht => (hvalid.isShort_of_mem_tokens t ht).readable)
    MultisigRedeem.isDelimiter_of_mem_tokens
  have hroom := hm.room
  rw [runScript_eq_run hm.running hprogram, run_redeemTokens hvalid hm.running (by omega), hm.stack]
  rfl

theorem size_demanding_le (hm : m.Supplied redeem spending signatures) :
  (demanding m redeem signatures).size ≤ (demanding m redeem signatures).limits.stackSize
  := by
  have hroom := hm.room
  have hlength : (demanding m redeem signatures).stack.length
      = redeem.keys.length + 2 + m.stack.length := by
    rw [hm.stack]
    simp only [demanding, beforeCheck, List.length_cons, List.length_append, List.length_map,
      List.length_reverse]
    omega
  rw [Machine.size] at hroom
  rw [Machine.size, hlength]
  change _ + m.altStack.length ≤ m.limits.stackSize
  omega

/-- A demand whose signatures match its keys in order finds all of them. -/
theorem runScript_demand_of_matches {stripped : Script} (hvalid : redeem.Valid)
    (hm : m.Supplied redeem spending signatures) (hne : ∀ s ∈ signatures, s ≠ [])
    (hle : signatures.length ≤ redeem.required)
    (hall : m.partialMultisig = false → signatures.length = redeem.required)
    (hstripped : (Script.encoded (Token.encodeAll redeem.tokens)).removePushes signatures
      = .ok stripped)
    (hmatches : spending.countMatches stripped signatures redeem.keys = .ok signatures.length) :
  runScript (.encoded (Token.encodeAll redeem.tokens)) m = .ok () { m with
    stack := [.truth (signatures.length == redeem.required)]
    matchCount := signatures.length }
  := by
  have hcheck : execute .checkMultisig (demanding m redeem signatures) = .ok () { m with
      stack := [.truth (signatures.length == redeem.required)]
      matchCount := signatures.length } :=
    @checkMultisig_of_matches (demanding m redeem signatures) _ _ _ _ _ _ _ hm.spending hm.script
      hm.number hvalid.keys_le hvalid.required_le rfl hne hle hall hstripped hmatches
  rw [runScript_demand hvalid hm, run_flat_op (size_demanding_le hm) hcheck hm.running,
    run_flat_nil]

/-- A demand for more signatures than there are ends with an error. -/
theorem runScript_demand_of_missing (hvalid : redeem.Valid)
    (hm : m.Supplied redeem spending signatures) (hlt : signatures.length < redeem.required)
    (hfull : m.partialMultisig = false) :
  ∃ e m', runScript (.encoded (Token.encodeAll redeem.tokens)) m = .error e m'
  := by
  have hlength : (supplied signatures).length ≤ redeem.required := by
    simp only [supplied, List.length_append, List.length_map, List.length_reverse,
      List.length_singleton]
    omega
  obtain ⟨e, m', hcheck⟩ := @checkMultisig_of_missing (demanding m redeem signatures) _ _ _ _ _
    hm.spending hm.script hm.number hvalid.keys_le hvalid.required_le rfl hlength hfull
  exact ⟨e, m', (runScript_demand hvalid hm).trans
    (run_flat_op_error (size_demanding_le hm) hcheck)⟩

end Step

/-! ### The transaction -/

namespace Transaction

variable {tx : Transaction} {index : Nat} {input : Input} {redeem : MultisigRedeem}
  {signatures : List Bytes}

/-- Whether a supply finds all its signatures to be good, in a check for an input. -/
def Matches (tx : Transaction) (index : Nat) (redeem : MultisigRedeem) (signatures : List Bytes) :
    Prop :=
  ∀ hindex : index < tx.inputs.length, ∃ stripped,
    (Script.encoded (Token.encodeAll redeem.tokens)).removePushes signatures = .ok stripped
    ∧ Spending.countMatches ⟨tx, index, hindex⟩ stripped signatures redeem.keys
      = .ok signatures.length

/-- There is nothing to remove from tokens that do not push any of the data. -/
theorem exists_removePushes_of_absent {ts : List Token} (hflat : ∀ t ∈ ts, t.isDelimiter = false)
    {datas : List Bytes} (habsent : ∀ data ∈ datas, ∀ t ∈ ts, t.data? ≠ some data) {script : Script}
    (hscript : script.tokens = .ok ts) :
  ∃ stripped, script.removePushes datas = .ok stripped ∧ stripped.tokens = .ok ts
  := by
  induction datas generalizing script with
  | nil => exact ⟨script, rfl, hscript⟩
  | cons data datas ih =>
    obtain ⟨hdata, hmore⟩ := List.forall_mem_cons.mp habsent
    have htokens : (Script.assembled (.flat ts)).tokens = .ok ts :=
      congrArg Except.ok (Program.tokens_flat ts)
    obtain ⟨stripped, hstripped, h⟩ := ih hmore htokens
    use stripped
    rw [Script.removePushes, bind_of_eq_ok (Script.removePush_of_absent hflat hdata hscript)]
    exact ⟨hstripped, h⟩

theorem hasKeyForm_signatureBytes (signature : Signature) (type : UInt8) :
  PublicKey.hasKeyForm (signatureBytes signature type) = false
  := rfl

/-- Signatures are not among the keys of a demand. -/
theorem data?_ne_signatureBytes (hvalid : redeem.Valid) (signature : Signature) (type : UInt8) :
  ∀ t ∈ redeem.tokens, t.data? ≠ some (signatureBytes signature type)
  := by
  apply MultisigRedeem.forall_mem_tokens
  · intro n h
    cases h
  · intro key hkey h
    have hsame : key = signatureBytes signature type := Option.some.inj h
    have hform := hvalid.keyForm key hkey
    rw [hsame, hasKeyForm_signatureBytes] at hform
    cases hform
  · intro h
    cases h

/-- A check of a signature verifies it with the digest of its hash type. -/
theorem checkSignature_signatureBytes {spending : Spending} {subScript : Script} {type : UInt8}
    {digest : FixedBytes 32} {key : Bytes} {publicKey : PublicKey} (signature : Signature)
    (hdigest : spending.transaction.digest spending.index type.toUInt32 subScript = .ok digest)
    (hkey : PublicKey.ofBytes key .mainnet = .ok publicKey) :
  spending.checkSignature subScript (signatureBytes signature type) key
    = .ok (publicKey.verifyDigest digest.toList signature)
  := by
  have hder : Signature.ofDer signature.toDer = .ok { signature with recoveryId := none } :=
    Signature.ofDer_toDer signature
  rw [Spending.checkSignature, signatureBytes, List.getLast?_concat]
  dsimp only
  rw [List.dropLast_concat, hder, hkey]
  dsimp only
  rw [bind_of_eq_ok hdigest, PublicKey.verifyDigest_withoutId]

/-- Signatures in slots whose keys verify them are all found to be good. -/
theorem matches_of_verified {hashType : HashType} {digest : FixedBytes 32} {slots : Slots}
    {publicKeys : List PublicKey} (hvalid : redeem.Valid) (htype : hashType < 0x100)
    (hkeys : redeem.keys.mapM (PublicKey.ofBytes · .mainnet) = .ok publicKeys)
    (hdigest : tx.digest index hashType (demandScript redeem) = .ok digest)
    (hverified : Verified publicKeys digest slots) :
  tx.Matches index redeem ((slots.filterMap id).map (signatureBytes · hashType.toUInt8))
  := by
  intro hindex
  have hredeem : (Script.encoded (Token.encodeAll redeem.tokens)).multisigRedeem? = some redeem :=
    Script.multisigRedeem?_eq_some_iff.mpr ⟨hvalid, rfl⟩
  have hwf : (Script.encoded (Token.encodeAll redeem.tokens)).WellFormed := trivial
  have habsent : ∀ data ∈ (slots.filterMap id).map (signatureBytes · hashType.toUInt8),
      ∀ t ∈ redeem.tokens, t.data? ≠ some data := by
    intro data hdata
    obtain ⟨signature, _, rfl⟩ := List.mem_map.mp hdata
    apply data?_ne_signatureBytes hvalid signature _
  obtain ⟨stripped, hstripped, htokens⟩ := exists_removePushes_of_absent
    MultisigRedeem.isDelimiter_of_mem_tokens habsent (hwf.tokens_of_multisigRedeem? hredeem)
  refine ⟨stripped, hstripped, ?_⟩
  have hdigest' : tx.digest index hashType.toUInt8.toUInt32 stripped = .ok digest := by
    rw [HashType.toUInt32_toUInt8 htype, ← hdigest]
    apply digest_congr
    rw [htokens, tokens_demandScript]
  apply Spending.countMatches_of_matched
  · intro bytes hbytes key hkey
    obtain ⟨signature, _, rfl⟩ := List.mem_map.mp hbytes
    obtain ⟨publicKey, hdecoded⟩ := exists_of_mem_of_mapM hkeys hkey
    exact ⟨_, checkSignature_signatureBytes signature hdigest' hdecoded⟩
  · have hgood : ∀ (signature : Signature) (publicKey : PublicKey) (key : Bytes),
        PublicKey.ofBytes key .mainnet = .ok publicKey →
        publicKey.verifyDigest digest.toList signature = true →
        Spending.checkSignature ⟨tx, index, hindex⟩ stripped
          (signatureBytes signature hashType.toUInt8) key = .ok true := by
      intro signature publicKey key hdecoded hverifies
      rw [← hverifies]
      apply checkSignature_signatureBytes signature hdigest' hdecoded
    apply (hverified.matched.of_forall₂ hgood (mapM_eq_ok_iff.mp hkeys)).map
    intro signature key h
    apply h

/-- The answer of a run, without the machine that it leaves. -/
def verdict : EStateM.Result Error Machine Bool → Except Error Bool
  | .ok valid _ => .ok valid
  | .error e _ => .error e

/-- The verdict on an input is that of a fresh machine. -/
theorem verify_eq_verdict (hinput : tx.inputs[index]? = some input) {outputScript : Script}
    (hmachine : Machine.forInput tx index outputScript = .ok m) (partially : Bool) :
  tx.verify index outputScript partially
    = verdict (Step.spend input.script outputScript partially m)
  := by
  obtain ⟨hindex, _⟩ := List.getElem?_eq_some_iff.mp hinput
  rw [verify, bind_of_eq_ok (checkInput_of_lt hindex), bind_of_eq_ok hmachine, hinput]
  rfl

/-- Spending an output that pays to the hash of a demand is running the demand. -/
theorem verify_supply (hvalid : redeem.Valid) (hinput : tx.inputs[index]? = some input)
    (hscript : input.script
      = .assembled (.flat (MultisigSignatures.mk signatures (demandScript redeem)).tokens))
    (hle : signatures.length ≤ redeem.required) :
  ∃ (hindex : index < tx.inputs.length) (m : Machine),
    m.Supplied redeem ⟨tx, index, hindex⟩ signatures ∧ m.partialMultisig = false
    ∧ ∀ partially, tx.verify index (Script.payToScriptHash (demandScript redeem).hash) partially
      = verdict ((if partially
          then Step.runPartially (.encoded (Token.encodeAll redeem.tokens)) signatures.length
          else Step.runFully (.encoded (Token.encodeAll redeem.tokens))) m)
  := by
  let supply : MultisigSignatures := ⟨signatures, demandScript redeem⟩
  let outputScript := Script.payToScriptHash (demandScript redeem).hash
  obtain ⟨hindex, _⟩ := List.getElem?_eq_some_iff.mp hinput
  let m₀ : Machine := { Machine.initial with
    spending? := some ⟨tx, index, hindex⟩
    subScript? := some outputScript }
  have hbytes : (demandScript redeem).bytes = Token.encodeAll redeem.tokens := Script.bytes_flat _
  have hkeys := hvalid.keys_le
  have hrequired := hvalid.required_le
  have hlength : (Step.supplied signatures).length = signatures.length + 1 := by
    simp [Step.supplied]
  have hnumber : 1 ≤ Limits.standard.numberLength := by decide
  refine ⟨hindex, Step.revealed m₀ supply, ⟨rfl, ?_, hnumber, rfl, ?_, rfl⟩, rfl, ?_⟩
  · change redeem.keys.length + 3 + ((Step.supplied signatures).length + 0) ≤ 1000
    omega
  · rw [← hbytes]
    rfl
  · intro partially
    have hmachine : Machine.forInput tx index outputScript = .ok m₀ := dif_pos hindex
    have hroom : supply.signatures.length + 2 + m₀.size < m₀.limits.stackSize := by
      change signatures.length + 2 + 0 < 1000
      omega
    have hspend := @Step.spend_supply m₀ supply (isMultisigRedeem_demandScript hvalid) rfl rfl hroom
      partially
    rw [verify_eq_verdict hinput hmachine, hscript, hspend, ← hbytes]

/-- Partially, an output is spent by one signature or more. -/
theorem verifyPartially_supply (hvalid : redeem.Valid) (hinput : tx.inputs[index]? = some input)
    (hscript : input.script
      = .assembled (.flat (MultisigSignatures.mk signatures (demandScript redeem)).tokens))
    (hpos : signatures ≠ []) (hle : signatures.length ≤ redeem.required)
    (hne : ∀ s ∈ signatures, s ≠ []) (hmatches : tx.Matches index redeem signatures) :
  tx.verifyPartially index (Script.payToScriptHash (demandScript redeem).hash) = true
  := by
  obtain ⟨hindex, m, hm, _, hverify⟩ := verify_supply hvalid hinput hscript hle
  obtain ⟨stripped, hstripped, hcount⟩ := hmatches hindex
  have hm' : Machine.Supplied redeem ⟨tx, index, hindex⟩ signatures
      { m with partialMultisig := true } :=
    ⟨hm.running, hm.room, hm.number, hm.spending, hm.script, hm.stack⟩
  have hrun := Step.runScript_demand_of_matches hvalid hm' hne hle Bool.noConfusion hstripped hcount
  have hpos' : decide (0 < signatures.length) = true :=
    decide_eq_true (List.length_pos_iff.mpr hpos)
  have hpresent : decide (signatures.length ≤ signatures.length) = true :=
    decide_eq_true (Nat.le_refl _)
  have hmet : Step.runPartially (.encoded (Token.encodeAll redeem.tokens)) signatures.length m
      = .ok true { m with
        partialMultisig := true
        stack := [.truth (signatures.length == redeem.required)]
        matchCount := signatures.length } := by
    rw [Step.runPartially]
    change (Step.runScript _ >>= fun _ => _) { m with partialMultisig := true } = _
    rw [Step.bind_of_ok hrun]
    change EStateM.Result.ok
      (decide (0 < signatures.length) && decide (signatures.length ≤ signatures.length)) _ = _
    rw [hpos', hpresent]
    rfl
  rw [verifyPartially, hverify, if_pos rfl, hmet]
  rfl

/-- Fully, it is spent by as many as are demanded. -/
theorem verifyInput_supply_iff (hvalid : redeem.Valid) (hinput : tx.inputs[index]? = some input)
    (hscript : input.script
      = .assembled (.flat (MultisigSignatures.mk signatures (demandScript redeem)).tokens))
    (hle : signatures.length ≤ redeem.required) (hne : ∀ s ∈ signatures, s ≠ [])
    (hmatches : tx.Matches index redeem signatures) :
  tx.verifyInput index (Script.payToScriptHash (demandScript redeem).hash) = true
    ↔ signatures.length = redeem.required
  := by
  obtain ⟨hindex, m, hm, hfull, hverify⟩ := verify_supply hvalid hinput hscript hle
  obtain ⟨stripped, hstripped, hcount⟩ := hmatches hindex
  rw [verifyInput, hverify]
  constructor
  · intro h
    rcases Nat.lt_or_eq_of_le hle with hlt | heq
    · obtain ⟨e, m', hrun⟩ := Step.runScript_demand_of_missing hvalid hm hlt hfull
      have hfails : Step.runFully (.encoded (Token.encodeAll redeem.tokens)) m = .error e m' :=
        Step.bind_of_error hrun _
      rw [if_neg Bool.false_ne_true, hfails] at h
      cases h
    · apply heq
  · intro heq
    have hrun := Step.runScript_demand_of_matches hvalid hm hne hle (fun _ => heq) hstripped hcount
    have hmet : Step.runFully (.encoded (Token.encodeAll redeem.tokens)) m
        = .ok true { m with stack := [.truth true], matchCount := signatures.length } := by
      rw [Step.runFully, Step.bind_of_ok hrun, heq, beq_self_eq_true]
      change EStateM.Result.ok (!m.stopped && true) _ = _
      rw [hm.running]
      rfl
    rw [if_neg Bool.false_ne_true, hmet]
    rfl

/-- An input that nobody has signed reveals no script. -/
theorem verifyInput_of_unsigned (hinput : tx.inputs[index]? = some input)
    (hempty : input.script.bytes = []) (hash : FixedBytes 20) :
  tx.verifyInput index (Script.payToScriptHash hash) = false
  := by
  obtain ⟨hindex, _⟩ := List.getElem?_eq_some_iff.mp hinput
  let m : Machine := { Machine.initial with
    spending? := some ⟨tx, index, hindex⟩
    subScript? := some (Script.payToScriptHash hash) }
  let m₁ : Machine := { m with savedStack := some [] }
  have hmachine : Machine.forInput tx index (Script.payToScriptHash hash) = .ok m := dif_pos hindex
  have hrun : Step.runScript input.script m = .ok () m :=
    Step.runScript_eq_run rfl (Script.program_of_bytes_eq_nil hempty)
  have hsave : Step.saveStack m = .ok () m₁ := rfl
  have houtput : Step.runScript (Script.payToScriptHash hash) m₁
      = .error (.execution .emptyStack) m₁ := by
    have hhash : Step.execute .hash160 m₁ = .error (.execution .emptyStack) m₁ := rfl
    rw [Step.runScript_eq_run rfl (program_payToScriptHash hash), scriptHashTokens]
    apply Step.run_flat_op_error (Nat.zero_le _) hhash
  rw [verifyInput, verify_eq_verdict hinput hmachine, Step.spend, Step.bind_of_ok hrun,
    if_pos (isPayToScriptHash_payToScriptHash hash), Step.bind_of_ok hsave,
    Step.bind_of_error houtput]
  rfl

end Transaction

end Bitcoin
