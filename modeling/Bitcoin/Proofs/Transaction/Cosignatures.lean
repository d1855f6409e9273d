import Bitcoin.Proofs.Transaction.Spending

/-!
# Cosigning

Cosigners sign an input one after the other. What the input has after some of them is
determined by who has signed, in the order of the keys of the demand (`cosignatures`), and
not by the order in which they have signed.
-/

namespace Bitcoin

/-- The signature of a key as it is read from a script, without its recovery id. -/
def PrivateKey.cosignature (key : PrivateKey) (digest : FixedBytes 32) : Signature :=
  { Ecdsa.sign key.secret digest with recoveryId := none }

/-- Whether the signature that a key makes of a digest is verified by no other of some public
keys. -/
def PrivateKey.SignsAlone (key : PrivateKey) (publicKeys : List PublicKey)
    (digest : FixedBytes 32) : Prop :=
  ∀ publicKey ∈ publicKeys,
    publicKey.verifyDigest digest.toList (Ecdsa.sign key.secret digest) = true →
      publicKey.point = key.publicKey.point

namespace Transaction

/-- The signatures of some signers, in the slots of their public keys. -/
def cosignatures (publicKeys : List PublicKey) (digest : FixedBytes 32)
    (signers : List PrivateKey) : Slots :=
  publicKeys.map fun publicKey =>
    (signers.find? fun key => key.publicKey.point = publicKey.point).map (·.cosignature digest)

variable {publicKeys : List PublicKey} {digest : FixedBytes 32} {signers signers' : List PrivateKey}
  {key : PrivateKey} {publicKey : PublicKey} {i : Nat}

/-- Which of several elements is found does not depend on their order if at most one can
be. -/
theorem find?_perm {α : Type} {p : α → Bool} {xs ys : List α} (h : xs.Perm ys)
    (hunique : ∀ x ∈ xs, ∀ y ∈ xs, p x = true → p y = true → x = y) :
  xs.find? p = ys.find? p
  := by
  induction h with
  | nil => rfl
  | cons x _ ih =>
    rw [List.find?_cons, List.find?_cons,
      ih fun y hy z hz => hunique y (List.mem_cons_of_mem x hy) z (List.mem_cons_of_mem x hz)]
  | swap x y l =>
    rw [List.find?_cons, List.find?_cons, List.find?_cons, List.find?_cons]
    cases hx : p x with
    | false => rfl
    | true =>
      cases hy : p y with
      | false => rfl
      | true =>
        rw [hunique x (List.mem_cons_of_mem y List.mem_cons_self) y List.mem_cons_self hx hy]
  | trans hxy _ ih ih' =>
    rw [ih hunique]
    apply ih' fun y hy z hz => hunique y (hxy.mem_iff.mpr hy) z (hxy.mem_iff.mpr hz)

/-- The slots do not depend on the order in which the signers have signed. -/
theorem cosignatures_perm (h : signers.Perm signers') (hsecrets : (signers.map (·.secret)).Nodup) :
  cosignatures publicKeys digest signers = cosignatures publicKeys digest signers'
  := by
  rw [cosignatures, cosignatures]
  apply List.map_congr_left
  intro publicKey _
  rw [find?_perm h]
  intro key hkey key' hkey' hpoint hpoint'
  apply List.inj_on_of_nodup_map hsecrets hkey hkey'
  apply PrivateKey.secret_eq_of_point_eq
  rw [of_decide_eq_true hpoint, of_decide_eq_true hpoint']

/-- A further signer takes the slot of the public key. -/
theorem cosignatures_cons (hpoints : (publicKeys.map PublicKey.point).Nodup)
    (hpublicKey : publicKeys[i]? = some publicKey)
    (hpoint : publicKey.point = key.publicKey.point) :
  cosignatures publicKeys digest (key :: signers)
    = (cosignatures publicKeys digest signers).set i (some (key.cosignature digest))
  := by
  apply List.ext_getElem?
  intro j
  rw [cosignatures, cosignatures, List.getElem?_set, List.getElem?_map, List.getElem?_map,
    List.length_map]
  obtain ⟨hi, hget⟩ := List.getElem?_eq_some_iff.mp hpublicKey
  split
  · next h =>
    subst h
    rw [hpublicKey, Option.map_some, List.find?_cons, decide_eq_true hpoint.symm]
    rfl
  · next hne =>
    cases hj : publicKeys[j]? with
    | none => rfl
    | some other =>
      have hother : ¬ key.publicKey.point = other.point := by
        intro h
        apply hne
        obtain ⟨hj, rfl⟩ := List.getElem?_eq_some_iff.mp hj
        have hi' : i < (publicKeys.map PublicKey.point).length := by rwa [List.length_map]
        have hj' : j < (publicKeys.map PublicKey.point).length := by rwa [List.length_map]
        have hsame : (publicKeys.map PublicKey.point)[i] = (publicKeys.map PublicKey.point)[j] := by
          rw [List.getElem_map, List.getElem_map, hget, hpoint, h]
        apply hpoints.getElem_inj_iff.mp hsame
      rw [Option.map_some, Option.map_some, List.find?_cons, decide_eq_false hother]

/-- The slot of a public key with which nobody has signed is free. -/
theorem getElem?_cosignatures (hpublicKey : publicKeys[i]? = some publicKey)
    (hpoint : publicKey.point = key.publicKey.point)
    (hsecret : key.secret ∉ signers.map (·.secret)) :
  (cosignatures publicKeys digest signers)[i]? = some none
  := by
  have hnone : signers.find? (fun signer => signer.publicKey.point = publicKey.point) = none := by
    apply List.find?_eq_none.mpr
    intro signer hsigner hsame
    apply hsecret
    have hsame := PrivateKey.secret_eq_of_point_eq ((of_decide_eq_true hsame).trans hpoint)
    rw [← hsame]
    apply List.mem_map_of_mem hsigner
  rw [cosignatures, List.getElem?_map, hpublicKey, Option.map_some, hnone]
  rfl

/-- Each signature is verified by the public key of its slot alone. -/
theorem alone_cosignatures (hsign : ∀ key ∈ signers, key.SignsAlone publicKeys digest) :
  List.Forall₂ (Alone publicKeys digest) (cosignatures publicKeys digest signers) publicKeys
  := by
  rw [cosignatures, List.forall₂_map_left_iff, List.forall₂_same]
  intro publicKey _ signature hsignature
  obtain ⟨signer, hfound, rfl⟩ := Option.map_eq_some_iff.mp hsignature
  have hpoint : signer.publicKey.point = publicKey.point := by simpa using List.find?_some hfound
  refine ⟨rfl, ?_⟩
  intro other hother
  rw [PrivateKey.cosignature, PublicKey.verifyDigest_withoutId]
  constructor
  · intro hverified
    rw [hsign signer (List.mem_of_find?_eq_some hfound) other hother hverified, hpoint]
  · intro hsame
    exact PrivateKey.verifyDigest_of_signDigest (signer.signDigest_toList digest)
      (hsame.trans hpoint.symm)

theorem verified_cosignatures (hsign : ∀ key ∈ signers, key.SignsAlone publicKeys digest) :
  Verified publicKeys digest (cosignatures publicKeys digest signers)
  := by
  have halone := alone_cosignatures hsign
  rw [cosignatures, List.forall₂_map_left_iff, List.forall₂_same] at halone
  rw [Verified, cosignatures, List.forall₂_map_left_iff, List.forall₂_same]
  intro publicKey hpublicKey signature hsignature
  apply ((halone publicKey hpublicKey signature hsignature).2 publicKey hpublicKey).mpr rfl

/-- There is a slot for each signer. -/
theorem length_cosignatures (hpoints : (publicKeys.map PublicKey.point).Nodup)
    (hsecrets : (signers.map (·.secret)).Nodup)
    (hlisted : ∀ key ∈ signers, ∃ publicKey ∈ publicKeys, publicKey.point = key.publicKey.point)
    (hsign : ∀ key ∈ signers, key.SignsAlone publicKeys digest) :
  ((cosignatures publicKeys digest signers).filterMap id).length = signers.length
  := by
  induction signers with
  | nil => simp [cosignatures]
  | cons key signers ih =>
    obtain ⟨hfresh, hrest⟩ := List.nodup_cons.mp hsecrets
    obtain ⟨hkey, hothers⟩ := List.forall_mem_cons.mp hlisted
    obtain ⟨_, hsigns⟩ := List.forall_mem_cons.mp hsign
    obtain ⟨publicKey, hmem, hpoint⟩ := hkey
    obtain ⟨i, hi⟩ := List.mem_iff_getElem?.mp hmem
    rw [cosignatures_cons hpoints hi hpoint,
      (perm_filterMap_set (getElem?_cosignatures hi hpoint hfresh) _).length_eq, List.length_cons,
      List.length_cons, ih hrest hothers hsigns]

end Transaction

end Bitcoin
