import Bitcoin.Proofs.Script.Multisig

/-!
# Supplies of several signatures

A demand for several signatures is met by a zero, the signatures and the script that makes
the demand, each pushed in some form. `Script.ofMultisigSignatures` pushes them in the
shortest form (`MultisigSignatures.tokens`); `Script.multisigSignatures?` accepts any.
-/

namespace Bitcoin

/-- The shortest push of data. -/
def Push.shortest (data : Bytes) : Push :=
  ⟨.smallest data.length, data⟩

/-- The tokens of the script that supplies signatures. -/
def MultisigSignatures.tokens (supply : MultisigSignatures) : List Token :=
  .op .zero :: (supply.signatures.map (fun data => .push (.shortest data))
    ++ [.push (.shortest supply.redeem.bytes)])

/-- Whether a script is a zero, pushes of signatures, and a push of the script that demands
them. -/
def Script.Supplies (script : Script) (signatures : List Bytes) (demand : Bytes) : Prop :=
  ∃ (pushes : List Push) (last : Push),
    script.tokens = .ok (.op .zero :: (pushes.map .push ++ [.push last]))
    ∧ pushes.map Push.data = signatures ∧ last.data = demand

/-- Data are pushed in the smallest way, if there are any. -/
theorem Token.ofData_eq_ok_iff {data : Bytes} {t : Token} :
  ofData data = .ok t ↔ data ≠ [] ∧ t = .push (.shortest data)
  := by
  cases data with
  | nil =>
    constructor
    · rintro ⟨⟩
    · exact fun h => absurd rfl h.1
  | cons b rest =>
    constructor
    · rintro ⟨⟩
      exact ⟨List.cons_ne_nil _ _, rfl⟩
    · rintro ⟨_, rfl⟩
      rfl

namespace MultisigSignatures

theorem isDelimiter_of_mem_tokens (supply : MultisigSignatures) :
  ∀ t ∈ supply.tokens, t.isDelimiter = false
  := by
  intro t ht
  rcases List.mem_cons.mp ht with rfl | ht
  · rfl
  rcases List.mem_append.mp ht with ht | ht
  · obtain ⟨data, _, rfl⟩ := List.mem_map.mp ht
    rfl
  · rw [List.mem_singleton.mp ht]
    rfl

end MultisigSignatures

namespace Script

/-- A supply is built exactly if the script demands signatures, by as many keys at least,
and no signature is empty. -/
theorem ofMultisigSignatures_eq_ok_iff {signatures : List Bytes} {redeem script : Script} :
  ofMultisigSignatures signatures redeem = .ok script
    ↔ (∃ demand, redeem.multisigRedeem? = some demand ∧ signatures.length ≤ demand.keys.length)
      ∧ (∀ signature ∈ signatures, signature ≠ [])
      ∧ script = .assembled (.flat (MultisigSignatures.mk signatures redeem).tokens)
  := by
  have htokens := @mapM_eq_ok_iff_of_forall _ _ _ Token.ofData _ _
    (fun _ _ => Token.ofData_eq_ok_iff) signatures
  have hbuilt := ofTokens_flat
    (MultisigSignatures.isDelimiter_of_mem_tokens (MultisigSignatures.mk signatures redeem))
  rw [ofMultisigSignatures, multisigRedeem]
  cases hdemand : redeem.multisigRedeem? with
  | none =>
    constructor
    · rintro ⟨⟩
    · rintro ⟨⟨_, ⟨⟩, _⟩, _⟩
  | some demand =>
    have hne : redeem.bytes ≠ [] := by
      intro hnil
      rw [(multisigRedeem?_eq_some_iff.mp hdemand).2, encodeAll_redeemTokens] at hnil
      cases hnil
    change (if _ then _ else _ : Except Error Script) = _ ↔ _
    split
    · next h =>
      constructor
      · rintro ⟨⟩
      · rintro ⟨⟨_, ⟨⟩, hle⟩, _⟩
        apply absurd hle (Nat.not_le.mpr h)
    · next h =>
      rw [bind_eq_ok_iff]
      constructor
      · rintro ⟨ts, hts, hscript⟩
        obtain ⟨hnes, rfl⟩ := htokens.mp hts
        obtain ⟨last, hlast, hscript⟩ := bind_eq_ok_iff.mp hscript
        obtain ⟨_, rfl⟩ := Token.ofData_eq_ok_iff.mp hlast
        exact ⟨⟨demand, rfl, Nat.le_of_not_gt h⟩, hnes,
          Except.ok.inj (hscript.symm.trans hbuilt)⟩
      · rintro ⟨_, hnes, rfl⟩
        refine ⟨_, htokens.mpr ⟨hnes, rfl⟩, ?_⟩
        rw [bind_of_eq_ok (Token.ofData_eq_ok_iff.mpr ⟨hne, rfl⟩)]
        apply hbuilt

/-- Tokens that have data are pushes. -/
theorem mapM_data?_eq_some_iff {ts : List Token} {datas : List Bytes} :
  ts.mapM Token.data? = some datas
    ↔ ∃ pushes : List Push, ts = pushes.map .push ∧ datas = pushes.map Push.data
  := by
  induction ts generalizing datas with
  | nil =>
    constructor
    · rintro ⟨⟩
      exact ⟨[], rfl, rfl⟩
    · rintro ⟨pushes, h, rfl⟩
      rw [List.map_eq_nil_iff.mp h.symm]
      rfl
  | cons t ts ih =>
    rw [List.mapM_cons]
    constructor
    · intro h
      obtain ⟨data, hdata, h⟩ := Option.bind_eq_some_iff.mp h
      obtain ⟨rest, hrest, h⟩ := Option.bind_eq_some_iff.mp h
      cases h
      obtain ⟨pushes, rfl, rfl⟩ := ih.mp hrest
      cases t with
      | op o => cases hdata
      | push p =>
        cases hdata
        exact ⟨p :: pushes, rfl, rfl⟩
    · rintro ⟨pushes, h, rfl⟩
      cases pushes with
      | nil => cases h
      | cons p pushes =>
        obtain ⟨rfl, rfl⟩ := List.cons.inj h
        rw [ih.mpr ⟨pushes, rfl, rfl⟩]
        rfl

/-- Tokens are read as a supply exactly if they are a zero, and pushes of which the last one
is that of a demand. -/
theorem multisigSignaturesOfTokens?_eq_some_iff {ts : List Token} {found : MultisigSignatures} :
  multisigSignaturesOfTokens? ts = some found
    ↔ ∃ (pushes : List Push) (last : Push), ts = .op .zero :: (pushes.map .push ++ [.push last])
      ∧ (encoded last.data).isMultisigRedeem = true
      ∧ found = ⟨pushes.map Push.data, .encoded last.data⟩
  := by
  constructor
  · intro h
    rw [multisigSignaturesOfTokens?.eq_def] at h
    split at h
    · next rest =>
      obtain ⟨t, ht, h⟩ := Option.bind_eq_some_iff.mp h
      obtain ⟨redeem, hredeem, h⟩ := Option.bind_eq_some_iff.mp h
      split at h
      · next hdemand =>
        obtain ⟨datas, hdatas, h⟩ := Option.bind_eq_some_iff.mp h
        cases h
        obtain ⟨pushes, hpushes, rfl⟩ := mapM_data?_eq_some_iff.mp hdatas
        cases t with
        | op o => cases hredeem
        | push last =>
          cases hredeem
          refine ⟨pushes, last, ?_, hdemand, rfl⟩
          rw [← hpushes, List.dropLast_append_getLast? _ ht]
      · cases h
    · cases h
  · rintro ⟨pushes, last, rfl, hdemand, rfl⟩
    rw [multisigSignaturesOfTokens?, List.getLast?_concat, List.dropLast_concat]
    change (if _ then _ else _ : Option MultisigSignatures) = _
    rw [if_pos hdemand, mapM_data?_eq_some_iff.mpr ⟨pushes, rfl, rfl⟩]
    rfl

/-- A supply is a zero and pushes, the last of which is a demand. -/
theorem multisigSignatures?_eq_some_iff {script : Script} {found : MultisigSignatures} :
  script.multisigSignatures? = some found
    ↔ ∃ (pushes : List Push) (last : Push),
      script.tokens = .ok (.op .zero :: (pushes.map .push ++ [.push last]))
      ∧ (encoded last.data).isMultisigRedeem = true
      ∧ found = ⟨pushes.map Push.data, .encoded last.data⟩
  := by
  rw [multisigSignatures?]
  cases htokens : script.tokens with
  | error e =>
    constructor
    · rintro ⟨⟩
    · rintro ⟨_, _, ⟨⟩, _⟩
  | ok ts =>
    change multisigSignaturesOfTokens? ts = _ ↔ _
    rw [multisigSignaturesOfTokens?_eq_some_iff]
    simp only [Except.ok.injEq]

/-- A supply is read from the scripts that have its signatures and its demand. -/
theorem multisigSignatures?_of_supplies {script : Script} {signatures : List Bytes} {demand : Bytes}
    (h : script.Supplies signatures demand) (hdemand : (encoded demand).isMultisigRedeem = true) :
  script.multisigSignatures? = some ⟨signatures, .encoded demand⟩
  := by
  obtain ⟨pushes, last, htokens, rfl, rfl⟩ := h
  apply multisigSignatures?_eq_some_iff.mpr ⟨pushes, last, htokens, hdemand, rfl⟩

/-- What is recognised as a supply supplies its signatures to its demand. -/
theorem supplies_of_multisigSignatures? {script : Script} {found : MultisigSignatures}
    (h : script.multisigSignatures? = some found) :
  script.Supplies found.signatures found.redeem.bytes
  := by
  obtain ⟨pushes, last, htokens, _, rfl⟩ := multisigSignatures?_eq_some_iff.mp h
  exact ⟨pushes, last, htokens, rfl, rfl⟩

/-- The script that was built supplies what it was built of. -/
theorem supplies_flat_tokens (supply : MultisigSignatures) :
  (assembled (.flat supply.tokens)).Supplies supply.signatures supply.redeem.bytes
  := by
  have hdata : Push.data ∘ Push.shortest = id := rfl
  refine ⟨supply.signatures.map .shortest, .shortest supply.redeem.bytes, ?_, ?_, rfl⟩
  · rw [List.map_map]
    apply congrArg Except.ok (Program.tokens_flat supply.tokens)
  · rw [List.map_map, hdata, List.map_id]

theorem multisigSignatures?_flat_tokens {supply : MultisigSignatures}
    (h : supply.redeem.isMultisigRedeem = true) :
  (assembled (.flat supply.tokens)).multisigSignatures?
    = some ⟨supply.signatures, .encoded supply.redeem.bytes⟩
  := multisigSignatures?_of_supplies (supplies_flat_tokens supply) h

/-- A script supplies one list of signatures at most. -/
theorem Supplies.signatures_eq {script : Script} {signatures signatures' : List Bytes}
    {demand : Bytes}
    (h : script.Supplies signatures demand) (h' : script.Supplies signatures' demand) :
  signatures = signatures'
  := by
  obtain ⟨pushes, last, htokens, rfl, -⟩ := h
  obtain ⟨pushes', last', htokens', rfl, -⟩ := h'
  have hsame := List.tail_eq_of_cons_eq (Except.ok.inj (htokens.symm.trans htokens'))
  obtain ⟨hpushes, -⟩ := List.append_inj' hsame rfl
  rw [List.map_injective_iff.mpr (fun _ _ => Token.push.inj) hpushes]

/-- A script that supplies signatures has bytes. -/
theorem Supplies.bytes_ne_nil {script : Script} {signatures : List Bytes} {demand : Bytes}
    (h : script.Supplies signatures demand) :
  script.bytes ≠ []
  := by
  intro hempty
  obtain ⟨_, _, htokens, _⟩ := h
  rw [tokens, program_of_bytes_eq_nil hempty] at htokens
  cases htokens

end Script

end Bitcoin
