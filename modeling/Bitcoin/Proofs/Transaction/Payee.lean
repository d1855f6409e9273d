import Bitcoin.Proofs.Address
import Bitcoin.Proofs.Script.Classification
import Bitcoin.Transaction.Basic
import Mathlib.Order.Bounds.Basic

/-!
# The outputs that pay to an address

An output pays to an address if it has the form of the kind of the address and the address is all
that it reports (`Output.PaysTo`). It is searched for by the hash in the address. So the search also
stops at outputs that pay to the same hash as one of the other kind, that of the twin of the address
(`Address.twin`). It gives the first output that pays to one of the two, which is the first output
that pays to the address exactly if one that does stands in front of all that pay to the twin
(`Transaction.outputPayingAddress_of_decode`).
-/

namespace Bitcoin

/-- The form of the outputs that pay to hashes of a kind. -/
def AddressKind.form : AddressKind → Script.Form
  | .keyHash => .payToKeyHash
  | .scriptHash => .payToScriptHash

/-- The other kind. -/
def AddressKind.other : AddressKind → AddressKind
  | .keyHash => .scriptHash
  | .scriptHash => .keyHash

/-- The address of the other kind with the same hash. -/
def Address.twin (address : Address) : Address :=
  { address with kind := address.kind.other }

/-- Whether an output pays to an address, and only to this. -/
def Output.PaysTo (output : Output) (address : Address) : Prop :=
  output.script.hasForm address.kind.form = true
    ∧ output.addresses address.network = [address.encode]

/-- The indices of the outputs that pay to an address. -/
def Transaction.payees (tx : Transaction) (address : Address) : Set Nat :=
  {i | ∃ output, tx.outputs[i]? = some output ∧ output.PaysTo address}

/-- Whether an answer is the least of some indices, or nothing if there are none. -/
def IsFirst (indices : Set Nat) : Option Nat → Prop
  | some i => IsLeast indices i
  | none => indices = ∅

/-! ### First indices -/

/-- The search through a list gives the first index of what is searched for. -/
theorem isFirst_findIdx? {α : Type} (p : α → Bool) (xs : List α) :
  IsFirst {i | ∃ x, xs[i]? = some x ∧ p x = true} (xs.findIdx? p)
  := by
  cases h : xs.findIdx? p with
  | none =>
    rw [List.findIdx?_eq_none_iff] at h
    apply Set.eq_empty_of_forall_notMem
    rintro i ⟨x, hx, hp⟩
    rw [h x (List.mem_of_getElem? hx)] at hp
    cases hp
  | some i =>
    obtain ⟨hi, hp, hbefore⟩ := List.findIdx?_eq_some_iff_getElem.mp h
    refine ⟨⟨xs[i], List.getElem?_eq_getElem hi, hp⟩, ?_⟩
    rintro j ⟨x, hx, hpx⟩
    by_contra hlt
    obtain ⟨hj, rfl⟩ := List.getElem?_eq_some_iff.mp hx
    exact hbefore j (Nat.not_le.mp hlt) hpx

/-- The first of some and other indices is the first of the former exactly if one of these is less
than each of the latter. -/
theorem isFirst_iff_of_union {these others : Set Nat} {found : Option Nat}
    (h : IsFirst (these ∪ others) found) (hdisjoint : ∀ i ∈ these, i ∉ others) :
  IsFirst these found ↔ ∀ i ∈ others, ∃ j ∈ these, j < i
  := by
  cases found with
  | none =>
    obtain ⟨hthese, hothers⟩ := Set.union_empty_iff.mp h
    rw [hothers]
    exact iff_of_true hthese nofun
  | some first =>
    obtain ⟨hmem, hleast⟩ := h
    constructor
    · rintro ⟨hfirst, _⟩ i hi
      have hne : first ≠ i := fun e => hdisjoint first hfirst (e ▸ hi)
      exact ⟨first, hfirst, Nat.lt_of_le_of_ne (hleast (.inr hi)) hne⟩
    · intro hall
      refine ⟨?_, fun i hi => hleast (.inl hi)⟩
      rcases hmem with hfirst | hfirst
      · apply hfirst
      · obtain ⟨j, hj, hlt⟩ := hall first hfirst
        apply absurd (hleast (.inl hj)) (Nat.not_le.mpr hlt)

/-! ### What outputs pay to -/

/-- The hash of a kind that a script pays to. -/
def Script.paidHash? (script : Script) : AddressKind → Option (FixedBytes 20)
  | .keyHash => script.keyHash?
  | .scriptHash => script.scriptHash?

theorem Script.hasForm_form (script : Script) (kind : AddressKind) :
  script.hasForm kind.form = (script.paidHash? kind).isSome
  := by
  cases kind <;> rfl

/-- No script pays to hashes of both kinds. -/
theorem Script.paidHash?_other {script : Script} {kind : AddressKind} {hash : FixedBytes 20}
    (h : script.paidHash? kind = some hash) :
  script.paidHash? kind.other = none
  := by
  have hform : script.hasForm kind.form = true := by
    rw [hasForm_form, h]
    rfl
  have hne : kind.form ≠ kind.other.form := by cases kind <;> decide
  have hother := hasForm_eq_false hform kind.other.form hne
  rw [hasForm_form] at hother
  exact Option.isNone_iff_eq_none.mp (Option.isSome_eq_false_iff.mp hother)

/-- A script that pays to a hash reports the address of the hash alone. -/
theorem Script.addresses_of_paidHash? {script : Script} {kind : AddressKind}
    {hash : FixedBytes 20} (h : script.paidHash? kind = some hash) (network : Network) :
  script.addresses network = [Address.encode ⟨kind, network, hash⟩]
  := by
  cases kind with
  | keyHash =>
    have hkey : script.keyHash? = some hash := h
    rw [addresses, hkey]
  | scriptHash =>
    have hscript : script.scriptHash? = some hash := h
    have hkey : script.keyHash? = none := paidHash?_other h
    rw [addresses, hkey, hscript]

namespace Output

variable {output : Output} {address : Address}

/-- An output pays to an address exactly if its script pays to the hash as one of its kind. -/
theorem paysTo_iff :
  output.PaysTo address ↔ output.script.paidHash? address.kind = some address.hash
  := by
  rw [PaysTo, Script.hasForm_form, addresses]
  constructor
  · rintro ⟨hform, haddresses⟩
    obtain ⟨hash, hhash⟩ := Option.isSome_iff_exists.mp hform
    rw [Script.addresses_of_paidHash? hhash] at haddresses
    have heq := Address.encode_injective (List.singleton_inj.mp haddresses)
    rw [hhash, ← heq]
  · intro h
    exact ⟨Option.isSome_of_eq_some h, Script.addresses_of_paidHash? h _⟩

/-- An output is found by a hash if it pays to the address or to its twin. -/
theorem paysTo_or_twin_iff :
  output.PaysTo address ∨ output.PaysTo address.twin
    ↔ (output.script.keyHash? = some address.hash
      || output.script.scriptHash? = some address.hash : Bool) = true
  := by
  rw [paysTo_iff, paysTo_iff, Bool.or_eq_true, decide_eq_true_iff, decide_eq_true_iff]
  obtain ⟨kind, network, hash⟩ := address
  cases kind with
  | keyHash => apply Iff.rfl
  | scriptHash => apply or_comm

end Output

namespace Transaction

theorem notMem_payees_twin (tx : Transaction) (address : Address) :
  ∀ i ∈ tx.payees address, i ∉ tx.payees address.twin
  := by
  rintro i ⟨output, houtput, hpays⟩ ⟨other, hother, htwin⟩
  obtain rfl : output = other := Option.some.inj (houtput.symm.trans hother)
  rw [Output.paysTo_iff] at hpays htwin
  have hnone : output.script.paidHash? address.twin.kind = none := Script.paidHash?_other hpays
  rw [hnone] at htwin
  cases htwin

/-- The search for a hash gives the first output that pays to one of its two addresses. -/
theorem isFirst_outputPaying? (tx : Transaction) (address : Address) :
  IsFirst (tx.payees address ∪ tx.payees address.twin) (tx.outputPaying? address.hash)
  := by
  have hpayees : tx.payees address ∪ tx.payees address.twin
      = {i | ∃ output, tx.outputs[i]? = some output
        ∧ (output.script.keyHash? = some address.hash
          || output.script.scriptHash? = some address.hash : Bool) = true} := by
    ext i
    simp only [payees, Set.mem_union, Set.mem_ofPred_eq, ← Output.paysTo_or_twin_iff, and_or_left,
      exists_or]
  rw [hpayees]
  apply isFirst_findIdx?

/-- The search for an address gives the first output that pays to it or to its twin. This is the
first output that pays to the address exactly if one that does stands in front of each that pays to
the twin. -/
theorem outputPayingAddress_of_decode (tx : Transaction) {text : String} {address : Address}
    (h : Address.decode text = .ok address) :
  address.encode = text
    ∧ ∃ found, tx.outputPayingAddress text = .ok found
      ∧ IsFirst (tx.payees address ∪ tx.payees address.twin) found
      ∧ (IsFirst (tx.payees address) found
        ↔ ∀ i ∈ tx.payees address.twin, ∃ j ∈ tx.payees address, j < i)
  := by
  have hfirst := tx.isFirst_outputPaying? address
  refine ⟨Address.decode_eq_ok_iff.mp h, tx.outputPaying? address.hash, ?_, hfirst, ?_⟩
  · rw [outputPayingAddress, bind_of_eq_ok (Address.decodeHash_of_decode h)]
  · exact isFirst_iff_of_union hfirst (tx.notMem_payees_twin address)

/-- An output that pays to the hash of a key, in front of one that pays to the same hash as that of
a script. -/
theorem outputPayingAddress_of_decode_both :
  let hash := FixedBytes.zero 20
  let address : Address := ⟨.keyHash, .mainnet, hash⟩
  let tx : Transaction :=
    ⟨1, [], [⟨1000, .payToKeyHash hash⟩, ⟨2000, .payToScriptHash hash⟩], 0⟩
  Address.decode address.encode = .ok address
    ∧ tx.outputPayingAddress address.encode = .ok (some 0)
    ∧ IsFirst (tx.payees address) (some 0)
  := by
  intro hash address tx
  have hread := Address.decode_encode address
  have hsearch : tx.outputPayingAddress address.encode = .ok (some 0) := by
    rw [outputPayingAddress, bind_of_eq_ok (Address.decodeHash_of_decode hread)]
    rfl
  have hpaid : (Script.payToKeyHash hash).keyHash? = some hash :=
    Script.keyHash?_eq_some_iff.mpr rfl
  have hpays : (Output.mk 1000 (.payToKeyHash hash)).PaysTo address := Output.paysTo_iff.mpr hpaid
  obtain ⟨_, found, hfound, _, hclaim⟩ := outputPayingAddress_of_decode tx hread
  obtain rfl : some 0 = found := Except.ok.inj (hsearch.symm.trans hfound)
  refine ⟨hread, hsearch, hclaim.mpr ?_⟩
  rintro i ⟨output, houtput, htwin⟩
  refine ⟨0, ⟨_, rfl, hpays⟩, Nat.pos_of_ne_zero ?_⟩
  rintro rfl
  exact tx.notMem_payees_twin address 0 ⟨_, rfl, hpays⟩ ⟨output, houtput, htwin⟩

/-- An output that pays to the hash of a script is found by the address of the key with this hash,
though nothing pays to the key. -/
theorem outputPayingAddress_finds_twin :
  let hash := FixedBytes.zero 20
  let address : Address := ⟨.keyHash, .mainnet, hash⟩
  let tx : Transaction := ⟨1, [], [⟨1000, .payToScriptHash hash⟩], 0⟩
  Address.decode address.encode = .ok address
    ∧ tx.outputPayingAddress address.encode = .ok (some 0)
    ∧ tx.payees address = ∅
    ∧ ¬ IsFirst (tx.payees address) (some 0)
  := by
  intro hash address tx
  have hread := Address.decode_encode address
  have hnobody : tx.payees address = ∅ := by
    apply Set.eq_empty_of_forall_notMem
    rintro i ⟨output, houtput, hpays⟩
    obtain rfl := List.mem_singleton.mp (List.mem_of_getElem? houtput)
    cases Output.paysTo_iff.mp hpays
  refine ⟨hread, ?_, hnobody, ?_⟩
  · rw [outputPayingAddress, bind_of_eq_ok (Address.decodeHash_of_decode hread)]
    rfl
  · rw [hnobody]
    exact fun hfirst => hfirst.1

end Transaction

end Bitcoin
