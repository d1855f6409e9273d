import Bitcoin.Proofs.Machine.Completion
import Bitcoin.Proofs.Machine.Multisig

/-!
# Checking fewer signatures than demanded

A full check of several signatures takes as many as are demanded, and a partial one takes them from
the top down to an empty item. What either finds can be read off from its end
(`Step.checkMultisig_eq_ok_iff`). As no empty signature is good for a key, a full check that finds
all the signatures that are demanded has taken what a partial one takes, which then finds them, too
(`Step.runScript_demand_partially`).
-/

namespace Bitcoin

/-- The empty byte string is never a good signature. -/
theorem Spending.ne_nil_of_checkSignature {spending : Spending} {subScript : Script}
    {signature key : Bytes} (h : spending.checkSignature subScript signature key = .ok true) :
  signature ≠ []
  := by
  rintro rfl
  cases h

namespace Step

variable {m m' : Machine} {stack : List Item}

/-! ### Taking signatures -/

/-- What is taken is not empty, and stands on the stack. -/
theorem mem_takeNonempty {n : Nat} {data : Bytes} (h : data ∈ takeNonempty n stack) :
  data ≠ [] ∧ ∃ item ∈ stack, item.toBytes = data
  := by
  induction stack generalizing n with
  | nil => cases n <;> cases h
  | cons item stack ih =>
    cases n with
    | zero => cases h
    | succ n =>
      rw [takeNonempty] at h
      split at h
      · cases h
      · next hne =>
        rcases List.mem_cons.mp h with rfl | h
        · exact ⟨fun hnil => hne (List.isEmpty_iff.mpr hnil), item, List.mem_cons_self, rfl⟩
        · obtain ⟨hdata, other, hother, hbytes⟩ := ih h
          exact ⟨hdata, other, List.mem_cons_of_mem item hother, hbytes⟩

/-- All items are taken if none of them is empty. -/
theorem takeNonempty_eq {n : Nat} (h : ∀ data ∈ (stack.take n).map Item.toBytes, data ≠ []) :
  takeNonempty n stack = (stack.take n).map Item.toBytes
  := by
  induction stack generalizing n with
  | nil => cases n <;> rfl
  | cons item stack ih =>
    cases n with
    | zero => rfl
    | succ n =>
      rw [List.take_succ_cons, List.map_cons] at h ⊢
      obtain ⟨hitem, hmore⟩ := List.forall_mem_cons.mp h
      have hne : ¬ item.toBytes.isEmpty = true := fun hnil => hitem (List.isEmpty_iff.mp hnil)
      rw [takeNonempty, if_neg hne, ih hmore]

/-- What a full check takes, a partial one takes as well if nothing of it is empty. -/
theorem popSignatures_partially {required : Nat} {signatures : List Bytes}
    (hfull : m.partialMultisig = false) (h : popSignatures required m = .ok signatures m')
    (hne : ∀ s ∈ signatures, s ≠ []) :
  popSignatures required { m with partialMultisig := true }
    = .ok signatures { m' with partialMultisig := true }
  := by
  rw [popSignatures_of_full hfull] at h
  obtain ⟨hle, rfl, rfl⟩ := popMany_eq_ok_iff.mp h
  have hfilled : ∀ data ∈ (m.stack.take required).map Item.toBytes, data ≠ [] :=
    fun data hdata => hne data (List.mem_reverse.mpr hdata)
  rw [popSignatures_of_partial rfl]
  change EStateM.Result.ok (takeNonempty required m.stack).reverse { m with
    stack := m.stack.drop (takeNonempty required m.stack).length
    partialMultisig := true } = _
  rw [takeNonempty_eq hfilled, List.length_map, List.length_take, Nat.min_eq_left hle]

/-! ### The demand -/

variable {spending : Spending} {subScript : Script} {redeem : MultisigRedeem}

/-- A demand for signatures comes down to the check, for which there has to be room. -/
theorem runScript_demand_eq_ok_iff (hvalid : redeem.Valid) (hm : m.stopped = false)
    (hspending : m.spending? = some spending) (hscript : m.subScript? = some subScript)
    (hlimit : 1 ≤ m.limits.numberLength) :
  runScript (.encoded (Token.encodeAll redeem.tokens)) m = .ok () m'
    ↔ redeem.keys.length + 2 + m.size ≤ m.limits.stackSize
      ∧ ∃ signatures m₁ extra rest stripped count,
        popSignatures redeem.required m = .ok signatures m₁ ∧ m₁.stack = extra :: rest
        ∧ subScript.removePushes signatures = .ok stripped
        ∧ spending.countMatches stripped signatures redeem.keys = .ok count
        ∧ m' = { m₁ with
          stack := .truth (extra.toBytes.isEmpty && count == signatures.length
            && signatures.length == redeem.required) :: rest
          matchCount := count }
  := by
  have hprogram := Script.program_encoded_flat
    (fun t ht => (hvalid.isShort_of_mem_tokens t ht).readable)
    MultisigRedeem.isDelimiter_of_mem_tokens
  let m₁ : Machine := { m with stack := beforeCheck redeem.keys redeem.required m.stack }
  have hsize : m₁.size = redeem.keys.length + 2 + m.size := by
    simp [m₁, Machine.size, beforeCheck]
    omega
  have hcheck := @checkMultisig_eq_ok_iff m₁ m' m.stack spending subScript redeem.keys
    redeem.required hspending hscript hlimit hvalid.keys_le hvalid.required_le rfl
  rw [runScript_eq_run hm hprogram]
  constructor
  · intro h
    have hroom := room_of_run_redeemTokens hvalid hm h
    rw [run_redeemTokens hvalid hm hroom, run_flat_singleton_eq_ok_iff] at h
    exact ⟨hroom, hcheck.mp h.2⟩
  · rintro ⟨hroom, h⟩
    rw [run_redeemTokens hvalid hm hroom, run_flat_singleton_eq_ok_iff]
    exact ⟨hsize.trans_le hroom, hcheck.mpr h⟩

/-- Where a full check finds all the signatures that are demanded, so does a partial one. -/
theorem runScript_demand_partially (hvalid : redeem.Valid) (hm : m.stopped = false)
    (hspending : m.spending? = some spending) (hscript : m.subScript? = some subScript)
    (hlimit : 1 ≤ m.limits.numberLength) (hfull : m.partialMultisig = false)
    (h : runScript (.encoded (Token.encodeAll redeem.tokens)) m = .ok () m')
    (htop : ∃ top rest, m'.stack = top :: rest ∧ top.toBool = true) :
  redeem.required < m.stack.length ∧ ∃ m₁,
    runScript (.encoded (Token.encodeAll redeem.tokens)) { m with partialMultisig := true }
      = .ok () m₁
    ∧ m₁.matchCount = redeem.required
  := by
  obtain ⟨hroom, signatures, m₁, extra, rest, stripped, count, htaken, hextra, hstripped, hcount,
    rfl⟩ := (runScript_demand_eq_ok_iff hvalid hm hspending hscript hlimit).mp h
  obtain ⟨_, _, ⟨⟩, hgood⟩ := htop
  simp only [Item.toBool, Bool.and_eq_true, beq_iff_eq] at hgood
  obtain ⟨⟨_, rfl⟩, hrequired⟩ := hgood
  -- All that was taken was counted, and what was counted is not empty.
  have hne : ∀ s ∈ signatures, s ≠ [] := by
    have hmatched := (Spending.matched_of_countMatches hcount).2
    rw [List.take_length] at hmatched
    intro s hs
    obtain ⟨key, _, hgood⟩ := hmatched.exists_good hs
    exact Spending.ne_nil_of_checkSignature hgood
  have hlt : redeem.required < m.stack.length := by
    rw [popSignatures_of_full hfull] at htaken
    obtain ⟨_, _, rfl⟩ := popMany_eq_ok_iff.mp htaken
    have hlength : (m.stack.drop redeem.required).length = rest.length + 1 :=
      congrArg List.length hextra
    rw [List.length_drop] at hlength
    omega
  let m₂ : Machine := { m with partialMultisig := true }
  have hrun := (runScript_demand_eq_ok_iff hvalid (m := m₂) hm hspending hscript hlimit).mpr
    ⟨hroom, signatures, _, extra, rest, stripped, _, popSignatures_partially hfull htaken hne,
      hextra, hstripped, hcount, rfl⟩
  exact ⟨hlt, _, hrun, hrequired⟩

/-- Where a partial check finds signatures, one of those that it has taken is good for a key and the
script without pushes of what it has taken. -/
theorem exists_signature_of_runScript_demand (hvalid : redeem.Valid) (hm : m.stopped = false)
    (hspending : m.spending? = some spending) (hscript : m.subScript? = some subScript)
    (hlimit : 1 ≤ m.limits.numberLength) (hpartial : m.partialMultisig = true)
    (h : runScript (.encoded (Token.encodeAll redeem.tokens)) m = .ok () m')
    (hpos : 0 < m'.matchCount) :
  ∃ signatures stripped,
    (∀ data ∈ signatures, data ≠ [] ∧ ∃ item ∈ m.stack, item.toBytes = data)
    ∧ subScript.removePushes signatures = .ok stripped
    ∧ ∃ signature ∈ signatures, ∃ key ∈ redeem.keys,
      spending.checkSignature stripped signature key = .ok true
  := by
  obtain ⟨_, signatures, m₁, extra, rest, stripped, count, htaken, _, hstripped, hcount,
    rfl⟩ := (runScript_demand_eq_ok_iff hvalid hm hspending hscript hlimit).mp h
  rw [popSignatures_of_partial hpartial] at htaken
  obtain ⟨hsignatures, _⟩ := EStateM.Result.ok.inj htaken
  obtain ⟨hle, hmatched⟩ := Spending.matched_of_countMatches hcount
  have hfound : 0 < (signatures.take count).length := by
    rw [List.length_take, Nat.min_eq_left hle]
    exact hpos
  obtain ⟨signature, hsignature⟩ := List.exists_mem_of_length_pos hfound
  obtain ⟨key, hkey, hgood⟩ := hmatched.exists_good hsignature
  refine ⟨signatures, stripped, ?_, hstripped, signature, List.mem_of_mem_take hsignature, key,
    hkey, hgood⟩
  rw [← hsignatures]
  intro data hdata
  exact mem_takeNonempty (List.mem_reverse.mp hdata)

end Step

end Bitcoin
