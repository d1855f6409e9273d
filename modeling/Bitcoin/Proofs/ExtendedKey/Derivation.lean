import Bitcoin.ExtendedKey.Derivation
import Bitcoin.Proofs.Curve.Generator
import Bitcoin.Proofs.Except

/-!
# Deriving the public side

For an index that is not hardened, the child of the public side of a key is the public side of
its child, and where one of the two does not exist, neither does the other
(`ExtendedPrivateKey.child_publicKey`). So the keys that are reached along a list of such indices
are the public sides of those that are reached from the private key, and the way ends behind the
same key (`ExtendedPrivateKey.along_publicKey`).
-/

namespace Bitcoin

/-- The error in deriving a public key where there is an error in deriving the private key. -/
def Error.onPublicSide : Error → Error
  | .domain (.childZero index) => .domain (.childInfinity index)
  | e => e

/-! ### One child -/

/-- A place that can be denoted consists of its marks. -/
theorem Lineage.ofMarks_eq_ok_iff
    {chainCode : FixedBytes 32} {depth : UInt8} {parent : FixedBytes 4} {index : UInt32}
    {network : Network} {lineage : Lineage} :
  ofMarks chainCode depth parent index network = .ok lineage
    ↔ chainCode = lineage.chainCode ∧ depth = lineage.depth ∧ parent = lineage.parent
      ∧ index = lineage.index ∧ network = lineage.network
  := by
  constructor
  · intro h
    rw [ofMarks] at h
    split at h
    · cases h
      exact ⟨rfl, rfl, rfl, rfl, rfl⟩
    · cases h
  · rintro ⟨rfl, rfl, rfl, rfl, rfl⟩
    apply dif_pos lineage.master

/-- The place of a child is determined by its parent and by its chain code. -/
theorem Lineage.child_eq_ok_iff
    {parent : ExtendedPublicKey} {chainCode : FixedBytes 32} {index : UInt32} {lineage : Lineage} :
  child parent chainCode index = .ok lineage
    ↔ parent.lineage.depth ≠ 255 ∧ chainCode = lineage.chainCode
      ∧ parent.lineage.depth + 1 = lineage.depth ∧ parent.fingerprint = lineage.parent
      ∧ index = lineage.index ∧ parent.lineage.network = lineage.network
  := by
  rw [child]
  split
  · next hdepth =>
    constructor
    · rintro ⟨⟩
    · exact fun h => absurd hdepth h.1
  · next hdepth => rw [ofMarks_eq_ok_iff, and_iff_right hdepth]

/-- All there is to a child that exists. -/
theorem ExtendedPrivateKey.of_child_eq_ok {parent key : ExtendedPrivateKey} {index : UInt32}
    (h : parent.child index = .ok key) :
  ∃ k chainCode,
    splitCode (Hmac.sha512 parent.lineage.chainCode.toList
        ((if isHardened index then 0 :: parent.key.toBytes.toList
          else parent.publicKey.key.toBytes true) ++ Bytes.ofNatBE 4 index.toNat))
      = .ok (k, chainCode)
    ∧ key.key.secret.val = k + parent.key.secret.val
    ∧ key.key.network = parent.lineage.network
    ∧ Lineage.child parent.publicKey chainCode index = .ok key.lineage
  := by
  obtain ⟨⟨k, chainCode⟩, hcode, h⟩ := bind_eq_ok_iff.mp h
  dsimp only at h
  split at h
  · obtain ⟨lineage, hlineage, h⟩ := bind_eq_ok_iff.mp h
    cases h
    exact ⟨k, chainCode, hcode, rfl, rfl, hlineage⟩
  · cases h

/-- All there is to a child that exists. -/
theorem ExtendedPublicKey.of_child_eq_ok {parent key : ExtendedPublicKey} {index : UInt32}
    (h : parent.child index = .ok key) :
  isHardened index = false ∧ ∃ k chainCode,
    splitCode (Hmac.sha512 parent.lineage.chainCode.toList
        (parent.key.toBytes true ++ Bytes.ofNatBE 4 index.toNat)) = .ok (k, chainCode)
    ∧ key.key.point = (Point.mulGenerator k).add parent.key.point
    ∧ key.key.point ≠ .infinity
    ∧ key.key.network = parent.lineage.network
    ∧ Lineage.child parent chainCode index = .ok key.lineage
  := by
  rw [child] at h
  split at h
  · cases h
  · next hsoft =>
    obtain ⟨⟨k, chainCode⟩, hcode, h⟩ := bind_eq_ok_iff.mp h
    dsimp only at h
    split at h
    · cases h
    · next hfinite =>
      obtain ⟨lineage, hlineage, h⟩ := bind_eq_ok_iff.mp h
      cases h
      refine ⟨Bool.eq_false_iff.mpr hsoft, k, chainCode, hcode, rfl, ?_, rfl, hlineage⟩
      apply mt Point.isInfinity_iff.mpr hfinite

/-- Splitting an authentication code fails for one reason only. -/
theorem splitCode_eq_error {code : FixedBytes 64} {e : Error} (h : splitCode code = .error e) :
  e = .domain .derivedRange
  := by
  rw [splitCode] at h
  split at h
  · cases h
  · cases h
    rfl

/-- A place that does not exist is the same on both sides. -/
theorem Lineage.onPublicSide_of_child_eq_error
    {parent : ExtendedPublicKey} {chainCode : FixedBytes 32} {index : UInt32} {e : Error}
    (h : Lineage.child parent chainCode index = .error e) :
  e.onPublicSide = e
  := by
  rw [Lineage.child] at h
  split at h
  · cases h
    rfl
  · rw [Lineage.ofMarks] at h
    split at h
    · cases h
    · cases h
      rfl

namespace ExtendedPrivateKey

/-- The public side of a child is the child of the public side. -/
theorem child_publicKey (parent : ExtendedPrivateKey) {index : UInt32}
    (h : isHardened index = false) :
  parent.publicKey.child index
    = ((parent.child index).map publicKey).mapError Error.onPublicSide
  := by
  rw [ExtendedPublicKey.child, child, h]
  simp only [Bool.false_eq_true, if_false]
  -- both sides split the same code
  have hchainCode : parent.publicKey.lineage.chainCode = parent.lineage.chainCode := rfl
  rw [hchainCode]
  generalize hhalves : splitCode _ = halves
  cases halves with
  | error e =>
    obtain rfl := splitCode_eq_error hhalves
    rfl
  | ok halves =>
    obtain ⟨k, chainCode⟩ := halves
    have hpoint : (Point.mulGenerator k).add parent.publicKey.key.point
        = Point.mulGenerator (k + parent.key.secret.val) :=
      Point.mulGenerator_add k parent.key.secret.val
    dsimp only [bind, Except.bind]
    rw [hpoint]
    by_cases hsum : k + parent.key.secret.val = 0
    · rw [if_pos (Point.isInfinity_mulGenerator_iff.mpr hsum), dif_neg (not_not.mpr hsum)]
      rfl
    · rw [if_neg (mt Point.isInfinity_mulGenerator_iff.mp hsum), dif_pos hsum]
      generalize hplace : Lineage.child _ _ _ = place
      cases place with
      | error e =>
        apply congrArg Except.error (Lineage.onPublicSide_of_child_eq_error hplace).symm
      | ok lineage => rfl

end ExtendedPrivateKey

/-! ### A list of indices -/

/-- What is reached from a key along a list of indices. -/
structure Walk (α : Type) where
  /-- The keys behind the first one, one for each step up to the one that fails. -/
  reached : List α
  /-- The error in place of the next key, if a step fails. -/
  failure : Option Error

namespace Walk

variable {α : Type} {step : α → UInt32 → Except Error α}

/-- The way along a list of indices, which ends where a step fails. -/
def along (step : α → UInt32 → Except Error α) (start : α) : List UInt32 → Walk α
  | [] => ⟨[], none⟩
  | index :: indices =>
    match step start index with
    | .error e => ⟨[], some e⟩
    | .ok next => { along step next indices with
        reached := next :: (along step next indices).reached }

/-- A way ends where its first step fails. -/
theorem along_of_error {start : α} {index : UInt32} {e : Error} (h : step start index = .error e)
    (indices : List UInt32) :
  along step start (index :: indices) = ⟨[], some e⟩
  := by
  rw [along, h]

/-- A way goes on from where its first step leads. -/
theorem along_of_ok {start next : α} {index : UInt32} (h : step start index = .ok next)
    (indices : List UInt32) :
  along step start (index :: indices)
    = ⟨next :: (along step next indices).reached, (along step next indices).failure⟩
  := by
  rw [along, h]

/-- What two steps have in common, ways have. -/
theorem along_map {β : Type} {step' : β → UInt32 → Except Error β} (f : α → β)
    (onError : Error → Error) {good : UInt32 → Prop}
    (h : ∀ a index, good index →
      step' (f a) index = ((step a index).map f).mapError onError)
    (start : α) {indices : List UInt32} (hgood : ∀ index ∈ indices, good index) :
  along step' (f start) indices
    = ⟨(along step start indices).reached.map f, (along step start indices).failure.map onError⟩
  := by
  induction indices generalizing start with
  | nil => rfl
  | cons index indices ih =>
    obtain ⟨hindex, hindices⟩ := List.forall_mem_cons.mp hgood
    have hstep' := h start index hindex
    cases hstep : step start index with
    | error e =>
      rw [hstep] at hstep'
      rw [along_of_error hstep, along_of_error hstep']
      rfl
    | ok next =>
      rw [hstep] at hstep'
      rw [along_of_ok hstep, along_of_ok hstep', ih next hindices]
      rfl

end Walk

namespace ExtendedPrivateKey

/-- Deriving public keys along indices that are not hardened reaches the public sides of what
deriving private keys reaches, and fails behind the same key, if at all. -/
theorem along_publicKey (root : ExtendedPrivateKey) {indices : List UInt32}
    (h : ∀ index ∈ indices, isHardened index = false) :
  Walk.along ExtendedPublicKey.child root.publicKey indices
    = ⟨(Walk.along child root indices).reached.map publicKey,
      (Walk.along child root indices).failure.map Error.onPublicSide⟩
  := Walk.along_map publicKey Error.onPublicSide (fun parent _ => child_publicKey parent) root h

/-- A child of a master key and a child of this child, which exist on both sides. -/
theorem along_publicKey_twice :
  let root : ExtendedPrivateKey :=
    ⟨⟨⟨1, by decide⟩, .mainnet⟩, .ofMaster (FixedBytes.zero 32) .mainnet⟩
  ∃ key key', Walk.along child root [0, 5] = ⟨[key, key'], none⟩
    ∧ Walk.along ExtendedPublicKey.child root.publicKey [0, 5]
      = ⟨[key.publicKey, key'.publicKey], none⟩
  := by
  intro root
  have hchildren : (root.child 0 >>= (·.child 5)).toOption.isSome = true := by decide +kernel
  obtain ⟨key', hkeys⟩ := Option.isSome_iff_exists.mp hchildren
  obtain ⟨key, hkey, hkey'⟩ := bind_eq_ok_iff.mp (eq_ok_of_toOption hkeys)
  have hway : Walk.along child root [0, 5] = ⟨[key, key'], none⟩ := by
    rw [Walk.along_of_ok hkey, Walk.along_of_ok hkey']
    rfl
  have hsoft : ∀ index ∈ [0, 5], isHardened index = false :=
    List.forall_mem_cons.mpr ⟨rfl, List.forall_mem_singleton.mpr rfl⟩
  use key, key', hway
  rw [along_publicKey root hsoft, hway]
  rfl

end ExtendedPrivateKey

end Bitcoin
