import Bitcoin.Proofs.Key
import Bitcoin.Proofs.Matching
import Bitcoin.Proofs.Signature.Der
import Bitcoin.Transaction.Signing

/-!
# Giving signatures to cosigners

Merging signatures gives each one to a slot, that of a cosigner. What is kept
(`Transaction.Verified`) is that the signature in a slot is verified by the key of the
cosigner; no signature is lost or added besides the one that is given
(`Transaction.perm_filterMap_set`), and its bytes are those that it was read from
(`Transaction.ofSignatureBytes_eq_ok_iff`).
-/

namespace Bitcoin

namespace Transaction

/-! ### Signatures and their bytes -/

/-- A signature is read from its bytes and from no others. -/
theorem ofSignatureBytes_eq_ok_iff {bytes : Bytes} {hashType : UInt8} {signature : Signature} :
  ofSignatureBytes bytes hashType = .ok signature
    ↔ bytes = signatureBytes signature hashType ∧ signature.recoveryId = none
  := by
  rw [ofSignatureBytes, signatureBytes]
  constructor
  · intro h
    split at h
    · cases h
    · next found hlast =>
      split at h
      · next hfound =>
        obtain ⟨hder, hid⟩ := Signature.ofDer_eq_ok_iff.mp h
        rw [hder, ← hfound, List.dropLast_append_getLast? _ hlast]
        exact ⟨rfl, hid⟩
      · cases h
  · rintro ⟨rfl, hid⟩
    rw [List.getLast?_concat]
    dsimp only
    rw [if_pos rfl, List.dropLast_concat]
    apply Signature.ofDer_eq_ok_iff.mpr ⟨rfl, hid⟩

theorem signatureBytes_ne_nil (signature : Signature) (hashType : UInt8) :
  signatureBytes signature hashType ≠ []
  := by
  rw [signatureBytes]
  simp

/-! ### Slots -/

/-- Whether every slot holds a signature that its key verifies, or none. -/
def Verified (keys : List PublicKey) (digest : FixedBytes 32) (slots : Slots) : Prop :=
  List.Forall₂ (fun slot key => ∀ signature ∈ slot, key.verifyDigest digest.toList signature = true)
    slots keys

variable {keys : List PublicKey} {digest : FixedBytes 32} {slots : Slots}

/-- At first no slot is taken. -/
theorem verified_empty (keys : List PublicKey) (digest : FixedBytes 32) :
  Verified keys digest (keys.map fun _ => none)
  := by
  rw [Verified, List.forall₂_map_left_iff, List.forall₂_same]
  rintro key _ signature ⟨⟩

/-- A slot may be taken by a signature that its key verifies. -/
theorem Verified.set (h : Verified keys digest slots) {i : Nat} {key : PublicKey}
    {signature : Signature} (hkey : keys[i]? = some key)
    (hverified : key.verifyDigest digest.toList signature = true) :
  Verified keys digest (slots.set i (some signature))
  := by
  rw [Verified] at h ⊢
  induction h generalizing i with
  | nil => cases hkey
  | cons hslot hslots ih =>
    cases i with
    | zero =>
      cases hkey
      refine .cons ?_ hslots
      rintro _ ⟨rfl⟩
      apply hverified
    | succ i => exact .cons hslot (ih hkey)

/-- Taking a free slot adds the signature. -/
theorem perm_filterMap_set {i : Nat} (hfree : slots[i]? = some none) (signature : Signature) :
  ((slots.set i (some signature)).filterMap id).Perm (signature :: slots.filterMap id)
  := by
  induction slots generalizing i with
  | nil => cases hfree
  | cons slot slots ih =>
    cases i with
    | zero =>
      cases hfree
      exact .refl _
    | succ i =>
      have hrest := ih hfree
      cases slot with
      | none => apply hrest
      | some other => apply (hrest.cons other).trans (.swap signature other _)

/-- The signatures in slots are verified in the order of the keys. -/
theorem Verified.matched (h : Verified keys digest slots) :
  Matched (fun signature key => key.verifyDigest digest.toList signature = true)
    (slots.filterMap id) keys
  := by
  rw [Verified] at h
  induction h with
  | nil => exact .nil
  | @cons slot key slots keys hslot _ ih =>
    cases slot with
    | none => exact .skip ih
    | some signature => exact .take (hslot signature rfl) ih

/-- A signature is given to a free slot whose key verifies it. -/
theorem exists_of_assign {signature : Signature} {slots' : Slots}
    (h : assign keys digest slots signature = .ok slots') :
  ∃ i key, slots[i]? = some none ∧ keys[i]? = some key
    ∧ key.verifyDigest digest.toList signature = true ∧ slots' = slots.set i (some signature)
  := by
  rw [assign] at h
  split at h
  · next i hi =>
    cases h
    obtain ⟨hlt, hfits, _⟩ := List.findIdx?_eq_some_iff_getElem.mp hi
    rw [List.length_zip, lt_min_iff] at hlt
    rw [List.getElem_zip, Bool.and_eq_true, Option.isNone_iff_eq_none] at hfits
    refine ⟨i, keys[i], ?_, List.getElem?_eq_getElem hlt.1, hfits.2, rfl⟩
    rw [List.getElem?_eq_getElem hlt.2, hfits.1]
  · cases h

/-- After signatures are given to cosigners, the slots hold these signatures besides those
that they held, and their bytes are those that were given. -/
theorem verified_of_assignAll {hashType : UInt8} {existing : List Bytes} {slots' : Slots}
    (hverified : Verified keys digest slots)
    (h : assignAll keys digest hashType slots existing = .ok slots') :
  Verified keys digest slots'
    ∧ ((slots'.filterMap id).map (signatureBytes · hashType)).Perm
      ((slots.filterMap id).map (signatureBytes · hashType) ++ existing)
  := by
  induction existing generalizing slots with
  | nil =>
    cases h
    rw [List.append_nil]
    exact ⟨hverified, .refl _⟩
  | cons bytes rest ih =>
    rw [assignAll] at h
    obtain ⟨signature, hsignature, hassign⟩ := bind_eq_ok_iff.mp h
    obtain ⟨next, hnext, hrest⟩ := bind_eq_ok_iff.mp hassign
    obtain ⟨i, key, hfree, hkey, hgood, rfl⟩ := exists_of_assign hnext
    obtain ⟨rfl, _⟩ := ofSignatureBytes_eq_ok_iff.mp hsignature
    obtain ⟨hverified', hperm⟩ := ih (hverified.set hkey hgood) hrest
    use hverified'
    have hset := (perm_filterMap_set hfree signature).map (signatureBytes · hashType)
    apply hperm.trans
    apply (hset.append_right rest).trans
    rw [List.map_cons, List.cons_append]
    apply List.perm_middle.symm

/-! ### Slots that are filled in order -/

/-- A signature is given to the first key that verifies it. -/
theorem assign_of_first {before after : List PublicKey} {key : PublicKey} {done free : Slots}
    {signature : Signature} (hlength : before.length = done.length)
    (hbefore : ∀ k ∈ before, k.verifyDigest digest.toList signature = false)
    (hkey : key.verifyDigest digest.toList signature = true) :
  assign (before ++ key :: after) digest (done ++ none :: free) signature
    = .ok (done ++ some signature :: free)
  := by
  let fits : PublicKey × Option Signature → Bool := fun p =>
    p.2.isNone && p.1.verifyDigest digest.toList signature
  have hnone : (before.zip done).findIdx? fits = none := by
    apply List.findIdx?_eq_none_iff.mpr
    intro p hmem
    change (p.2.isNone && p.1.verifyDigest digest.toList signature) = false
    rw [hbefore p.1 (List.of_mem_zip hmem).1, Bool.and_false]
  have hfits : fits (key, none) = true := hkey
  have hzip : (before.zip done).length = done.length := by
    rw [List.length_zip, hlength, Nat.min_self]
  have hfound : ((before ++ key :: after).zip (done ++ none :: free)).findIdx? fits
      = some done.length := by
    rw [List.zip_append hlength, List.findIdx?_append, hnone, List.zip_cons_cons,
      List.findIdx?_cons, hfits, if_pos rfl, hzip, Option.none_or, Option.map_some, Nat.zero_add]
  have hset : (done ++ none :: free).set done.length (some signature)
      = done ++ some signature :: free := by
    rw [List.set_append_right _ _ (Nat.le_refl _), Nat.sub_self]
    rfl
  unfold assign
  dsimp only
  rw [hfound]
  dsimp only
  rw [hset]

/-- Whether a slot holds a signature, without recovery id, that the key and no other of some
keys verifies, or none. -/
def Alone (keys : List PublicKey) (digest : FixedBytes 32) (slot : Option Signature)
    (key : PublicKey) : Prop :=
  ∀ signature ∈ slot, signature.recoveryId = none
    ∧ ∀ k ∈ keys, k.verifyDigest digest.toList signature = true ↔ k.point = key.point

/-- Signatures each of which is verified by one key alone are given to these keys. -/
theorem assignAll_of_alone {hashType : UInt8} {before after : List PublicKey} {done rest : Slots}
    (hlength : before.length = done.length)
    (hpoints : ((before ++ after).map PublicKey.point).Nodup)
    (halone : List.Forall₂ (Alone (before ++ after) digest) rest after) :
  assignAll (before ++ after) digest hashType (done ++ after.map fun _ => none)
      ((rest.filterMap id).map (signatureBytes · hashType))
    = .ok (done ++ rest)
  := by
  induction after generalizing before done rest with
  | nil =>
    cases halone
    rfl
  | cons key after ih =>
    cases halone with
    | @cons slot _ rest _ hslot hrest =>
      have hsplit : before ++ key :: after = (before ++ [key]) ++ after := by simp
      have hnext : ∀ taken : Option Signature,
          (before ++ [key]).length = (done ++ [taken]).length := by
        intro taken
        simp [hlength]
      rw [hsplit] at hpoints hrest
      cases slot with
      | none =>
        have hfilled := ih (hnext none) hpoints hrest
        rw [List.append_assoc, List.append_assoc, List.append_assoc] at hfilled
        apply hfilled
      | some signature =>
        obtain ⟨hid, hverifies⟩ := hslot signature rfl
        have hfirst : ∀ k ∈ before, k.verifyDigest digest.toList signature = false := by
          intro k hk
          rw [← Bool.not_eq_true]
          intro hverified
          have hpoint := (hverifies k (List.mem_append_left _ hk)).mp hverified
          rw [List.append_assoc, List.map_append, List.nodup_append] at hpoints
          apply hpoints.2.2 _ (List.mem_map_of_mem hk) _ List.mem_cons_self hpoint
        have hkey : key.verifyDigest digest.toList signature = true :=
          (hverifies key (List.mem_append_right _ List.mem_cons_self)).mpr rfl
        have hread : ofSignatureBytes (signatureBytes signature hashType) hashType
            = .ok signature :=
          ofSignatureBytes_eq_ok_iff.mpr ⟨rfl, hid⟩
        have hassigned := @assign_of_first digest before after key done (after.map fun _ => none)
          signature hlength hfirst hkey
        have hfilled := ih (hnext (some signature)) hpoints hrest
        rw [List.append_assoc, List.append_assoc, List.append_assoc] at hfilled
        change assignAll _ _ _ _ (signatureBytes signature hashType :: _) = _
        rw [assignAll, bind_of_eq_ok hread, List.map_cons, bind_of_eq_ok hassigned]
        apply hfilled

end Transaction

end Bitcoin
