import Bitcoin.ExtendedKey.Path
import Bitcoin.Proofs.ExtendedKey.Derivation

/-!
# Chains of derived keys

The keys along a list of indices are a chain: each is the child of the one in front of it, and it
stands one step below that one, on the network and of the sort of the root
(`ExtendedKey.isChain_of_descend`). A way that is cut in two is followed by following one part and
then the other one, from the last key of the first (`ExtendedKey.descend_append`).
-/

namespace Bitcoin.ExtendedKey

/-! ### One step -/

/-- Whether a key is a private one. -/
def isPrivate : ExtendedKey → Bool
  | .privateKey _ => true
  | .publicKey _ => false

/-- Whether a key stands one step below another one, at an index. -/
structure IsBelow (upper : ExtendedKey) (index : UInt32) (key : ExtendedKey) : Prop where
  depth : key.lineage.depth.toNat = upper.lineage.depth.toNat + 1
  index : key.lineage.index = index
  parent : key.lineage.parent = upper.neutered.fingerprint

section Step

variable {upper key : ExtendedKey} {index : UInt32} (h : upper.child index = .ok key)

include h

/-- Children are of the sort of their parent. -/
theorem isPrivate_of_child :
  key.isPrivate = upper.isPrivate
  := by
  cases upper with
  | privateKey upper =>
    obtain ⟨_, _, rfl⟩ := map_eq_ok_iff.mp h
    rfl
  | publicKey upper =>
    obtain ⟨_, _, rfl⟩ := map_eq_ok_iff.mp h
    rfl

/-- The place of a child follows from the public side of its parent. -/
theorem exists_lineage_of_child :
  ∃ chainCode, Lineage.child upper.neutered chainCode index = .ok key.lineage
  := by
  cases upper with
  | privateKey upper =>
    obtain ⟨inner, hinner, rfl⟩ := map_eq_ok_iff.mp h
    obtain ⟨_, chainCode, _, _, _, hlineage⟩ := ExtendedPrivateKey.of_child_eq_ok hinner
    exact ⟨chainCode, hlineage⟩
  | publicKey upper =>
    obtain ⟨inner, hinner, rfl⟩ := map_eq_ok_iff.mp h
    obtain ⟨_, _, chainCode, _, _, _, _, hlineage⟩ := ExtendedPublicKey.of_child_eq_ok hinner
    exact ⟨chainCode, hlineage⟩

/-- A child stands one step below its parent, whose fingerprint it has. There is no child at the
greatest depth, so that depths do not wrap around. -/
theorem isBelow_of_child :
  IsBelow upper index key
  := by
  obtain ⟨_, hlineage⟩ := exists_lineage_of_child h
  obtain ⟨hdepth, _, hnext, hparent, hindex, _⟩ := Lineage.child_eq_ok_iff.mp hlineage
  refine ⟨?_, hindex.symm, hparent.symm⟩
  have hupper : upper.neutered.lineage = upper.lineage := by cases upper <;> rfl
  rw [hupper] at hdepth hnext
  have hne : upper.lineage.depth.toNat ≠ 255 := fun h => hdepth (UInt8.toNat_inj.mp h)
  have hlt := upper.lineage.depth.toNat_lt
  rw [← hnext, UInt8.toNat_add]
  change (upper.lineage.depth.toNat + 1) % 256 = _
  omega

/-- Children are on the network of their parent. -/
theorem network_of_child :
  key.network = upper.network
  := by
  obtain ⟨_, hlineage⟩ := exists_lineage_of_child h
  have hnetwork := (Lineage.child_eq_ok_iff.mp hlineage).2.2.2.2.2
  cases upper <;> exact hnetwork.symm

/-- A hardened child needs the private key. -/
theorem isHardened_eq_false_of_child (hpublic : upper.isPrivate = false) :
  isHardened index = false
  := by
  cases upper with
  | privateKey upper => cases hpublic
  | publicKey upper =>
    obtain ⟨_, hinner, _⟩ := map_eq_ok_iff.mp h
    exact (ExtendedPublicKey.of_child_eq_ok hinner).1

end Step

/-! ### Chains -/

/-- Whether the keys behind a root are those that are derived along indices. -/
structure IsChain (root : ExtendedKey) (indices : List UInt32) (keys : List ExtendedKey) :
    Prop where
  length_eq : keys.length = indices.length + 1
  head_eq : keys.head? = some root
  linked : ∀ (j : Nat) (upper key : ExtendedKey) (index : UInt32), keys[j]? = some upper →
    indices[j]? = some index → keys[j + 1]? = some key →
    upper.child index = .ok key ∧ IsBelow upper index key
  network_eq : ∀ key ∈ keys, key.network = root.network
  isPrivate_eq : ∀ key ∈ keys, key.isPrivate = root.isPrivate

variable {root key : ExtendedKey} {indices : List UInt32} {keys : List ExtendedKey}

theorem isChain_nil (root : ExtendedKey) :
  IsChain root [] [root]
  := by
  refine ⟨rfl, rfl, fun _ _ _ _ _ hindex => ?_, ?_, ?_⟩
  · rw [List.getElem?_nil] at hindex
    cases hindex
  · rw [List.forall_mem_singleton]
  · rw [List.forall_mem_singleton]

theorem IsChain.cons {index : UInt32} (hchild : root.child index = .ok key)
    (h : IsChain key indices keys) :
  IsChain root (index :: indices) (root :: keys)
  := by
  refine ⟨congrArg (· + 1) h.length_eq, rfl, ?_, ?_, ?_⟩
  · intro j upper next _ hupper hindex hnext
    cases j with
    | zero =>
      cases hupper
      cases hindex
      rw [List.getElem?_cons_succ, ← List.head?_eq_getElem?, h.head_eq] at hnext
      cases hnext
      exact ⟨hchild, isBelow_of_child hchild⟩
    | succ j => exact h.linked j upper next _ hupper hindex hnext
  · rw [List.forall_mem_cons, ← network_of_child hchild]
    exact ⟨rfl, h.network_eq⟩
  · rw [List.forall_mem_cons, ← isPrivate_of_child hchild]
    exact ⟨rfl, h.isPrivate_eq⟩

/-- The keys that are followed from a root are a chain. -/
theorem isChain_of_descend (h : root.descend indices = .ok keys) :
  IsChain root indices keys
  := by
  induction indices generalizing root keys with
  | nil =>
    cases h
    apply isChain_nil
  | cons index indices ih =>
    obtain ⟨key, hchild, h⟩ := bind_eq_ok_iff.mp h
    obtain ⟨rest, hrest, h⟩ := bind_eq_ok_iff.mp h
    cases h
    apply (ih hrest).cons hchild

namespace IsChain

variable (h : IsChain root indices keys)

include h

theorem exists_cons :
  ∃ rest, keys = root :: rest
  := List.head?_eq_some_iff.mp h.head_eq

/-- Depths count the steps from the root. -/
theorem depth_eq {j : Nat} (hkey : keys[j]? = some key) :
  key.lineage.depth.toNat = root.lineage.depth.toNat + j
  := by
  induction j generalizing key with
  | zero =>
    rw [← List.head?_eq_getElem?, h.head_eq] at hkey
    cases hkey
    rfl
  | succ j ih =>
    have hlt := (List.getElem?_eq_some_iff.mp hkey).1
    have hupper := List.getElem?_eq_getElem (Nat.lt_of_succ_lt hlt)
    have hindex := List.getElem?_eq_getElem (Nat.lt_of_succ_lt_succ (h.length_eq ▸ hlt))
    rw [(h.linked j _ _ _ hupper hindex hkey).2.depth, ih hupper, Nat.add_assoc]

/-- A chain ends at the greatest depth. -/
theorem depth_add_length_le :
  root.lineage.depth.toNat + indices.length ≤ 255
  := by
  have hlast : indices.length < keys.length := by
    rw [h.length_eq]
    apply Nat.lt_succ_self
  have hdepth := h.depth_eq (List.getElem?_eq_getElem hlast)
  have hlt := (keys[indices.length]).lineage.depth.toNat_lt
  omega

/-- A chain of public keys has no hardened index. -/
theorem isHardened_eq_false (hpublic : root.isPrivate = false) {index : UInt32}
    (hmem : index ∈ indices) :
  isHardened index = false
  := by
  obtain ⟨j, hlt, hj⟩ := List.getElem_of_mem hmem
  have hlt' : j + 1 < keys.length := h.length_eq ▸ Nat.succ_lt_succ hlt
  have hindex : indices[j]? = some index := List.getElem?_eq_some_iff.mpr ⟨hlt, hj⟩
  have hupper := List.getElem?_eq_getElem (Nat.lt_of_succ_lt hlt')
  have hkey := List.getElem?_eq_getElem hlt'
  apply isHardened_eq_false_of_child (h.linked j _ _ _ hupper hindex hkey).1
  rw [h.isPrivate_eq _ (List.mem_of_getElem? hupper), hpublic]

end IsChain

/-! ### Ways that are cut in two -/

/-- A way of two parts goes on from the last key of the first one. -/
theorem descend_append (root : ExtendedKey) (front back : List UInt32) :
  root.descend (front ++ back) = (do
    let keys ← root.descend front
    let rest ← (keys.getLastD root).descend back
    .ok (keys ++ rest.tail))
  := by
  induction front generalizing root with
  | nil =>
    change root.descend back = root.descend back >>= fun rest => .ok ([root] ++ rest.tail)
    cases hback : root.descend back with
    | error e => rfl
    | ok keys =>
      obtain ⟨rest, rfl⟩ := (isChain_of_descend hback).exists_cons
      rfl
  | cons index front ih =>
    rw [List.cons_append, descend, descend]
    cases root.child index with
    | error e => rfl
    | ok key =>
      change key.descend (front ++ back) >>= _ = (key.descend front >>= _) >>= _
      rw [ih]
      cases hfront : key.descend front with
      | error e => rfl
      | ok keys =>
        obtain ⟨rest, rfl⟩ := (isChain_of_descend hfront).exists_cons
        have hlast : (root :: key :: rest).getLastD root = (key :: rest).getLastD key := by
          rw [List.getLastD_cons, List.getLastD_cons, List.getLastD_cons]
        change (((key :: rest).getLastD key).descend back >>= _) >>= _
          = ((root :: key :: rest).getLastD root).descend back >>= _
        rw [hlast]
        cases ((key :: rest).getLastD key).descend back with
        | error e => rfl
        | ok _ => rfl

/-! ### Paths -/

theorem followText_of_parse {text : String} {path : DerivationPath}
    (h : DerivationPath.parse text = .ok path) (root : ExtendedKey) :
  root.followText text = root.follow path
  := bind_of_eq_ok h _

/-- A path is followed if its root may be the start of it and its indices are. -/
theorem follow_eq_ok_iff {path : DerivationPath} :
  root.follow path = .ok keys
    ↔ (path.absolute = true → root.isMaster = true) ∧ root.descend path.indices = .ok keys
  := by
  rw [follow]
  split
  · next h =>
    rw [Bool.and_eq_true, Bool.not_eq_true'] at h
    constructor
    · rintro ⟨⟩
    · rintro ⟨hmaster, _⟩
      rw [hmaster h.1] at h
      cases h.2
  · next h =>
    rw [Bool.and_eq_true, Bool.not_eq_true', not_and, Bool.not_eq_false] at h
    rw [and_iff_right h]

/-- The second part of a path is relative, so that only the first one asks for a master key. -/
theorem follow_append (root : ExtendedKey) (absolute : Bool) (front back : List UInt32) :
  root.follow ⟨absolute, front ++ back⟩ = (do
    let keys ← root.follow ⟨absolute, front⟩
    let rest ← (keys.getLastD root).follow ⟨false, back⟩
    .ok (keys ++ rest.tail))
  := by
  rw [follow, follow]
  split
  · rfl
  · apply descend_append

section Parts

variable {text front back : String} {absolute : Bool} {before after : List UInt32}
  (htext : DerivationPath.parse text = .ok ⟨absolute, before ++ after⟩)
  (hfront : DerivationPath.parse front = .ok ⟨absolute, before⟩)
  (hback : DerivationPath.parse back = .ok ⟨false, after⟩)

include htext hfront hback

/-- What holds for paths holds for their texts. -/
theorem followText_append (root : ExtendedKey) :
  root.followText text = (do
    let keys ← root.followText front
    let rest ← (keys.getLastD root).followText back
    .ok (keys ++ rest.tail))
  := by
  simp only [followText_of_parse htext, followText_of_parse hfront, followText_of_parse hback]
  apply follow_append

/-- A whole way consists of the keys of its two parts, which share one key. -/
theorem followText_append_eq_ok_iff {whole : List ExtendedKey} :
  root.followText text = .ok whole
    ↔ ∃ keys rest, root.followText front = .ok keys
      ∧ (keys.getLastD root).followText back = .ok rest ∧ whole = keys ++ rest.tail
  := by
  rw [followText_append htext hfront hback]
  constructor
  · intro h
    obtain ⟨keys, hkeys, h⟩ := bind_eq_ok_iff.mp h
    obtain ⟨rest, hrest, h⟩ := bind_eq_ok_iff.mp h
    cases h
    exact ⟨keys, rest, hkeys, hrest, rfl⟩
  · rintro ⟨keys, rest, hkeys, hrest, rfl⟩
    rw [bind_of_eq_ok hkeys, bind_of_eq_ok hrest]

/-- A way fails in its first part, or in the second one after the first one has been followed. -/
theorem followText_append_eq_error_iff {e : Error} :
  root.followText text = .error e
    ↔ root.followText front = .error e
      ∨ ∃ keys, root.followText front = .ok keys
        ∧ (keys.getLastD root).followText back = .error e
  := by
  rw [followText_append htext hfront hback]
  simp only [bind_eq_error_iff, reduceCtorEq, and_false, exists_false, or_false]

end Parts

/-- Paths that lead beyond the greatest depth, or need a private key or a master key that is not
there, are not followed. -/
theorem exists_followText_error {text : String} {path : DerivationPath}
    (htext : DerivationPath.parse text = .ok path)
    (h : 255 < root.lineage.depth.toNat + path.indices.length
      ∨ (root.isPrivate = false ∧ ∃ index ∈ path.indices, isHardened index = true)
      ∨ (path.absolute = true ∧ root.isMaster = false)) :
  ∃ e, root.followText text = .error e
  := by
  rw [followText_of_parse htext, exists_eq_error_iff]
  rintro ⟨keys, hkeys⟩
  obtain ⟨hmaster, hkeys⟩ := follow_eq_ok_iff.mp hkeys
  have hchain := isChain_of_descend hkeys
  rcases h with hdepth | ⟨hpublic, index, hmem, hhardened⟩ | ⟨habsolute, hother⟩
  · apply Nat.not_le_of_lt hdepth hchain.depth_add_length_le
  · rw [hchain.isHardened_eq_false hpublic hmem] at hhardened
    cases hhardened
  · rw [hmaster habsolute] at hother
    cases hother

/-- The keys along a path are a chain from the root on. A path that is cut in two is followed in two
parts, of which the second one starts at the last key of the first, and it fails where one of these
does. No path is followed beyond the greatest depth, at a hardened index from a public key, or as an
absolute one from a key that is no master key. -/
theorem followText_chain (root : ExtendedKey) :
  (∀ (text : String) (keys : List ExtendedKey), root.followText text = .ok keys →
      ∃ path, DerivationPath.parse text = .ok path ∧ IsChain root path.indices keys)
    ∧ (∀ (text front back : String) (absolute : Bool) (before after : List UInt32),
      DerivationPath.parse text = .ok ⟨absolute, before ++ after⟩ →
      DerivationPath.parse front = .ok ⟨absolute, before⟩ →
      DerivationPath.parse back = .ok ⟨false, after⟩ →
        (∀ whole, root.followText text = .ok whole
          ↔ ∃ keys rest, root.followText front = .ok keys
            ∧ (keys.getLastD root).followText back = .ok rest ∧ whole = keys ++ rest.tail)
        ∧ ∀ e, root.followText text = .error e
          ↔ root.followText front = .error e
            ∨ ∃ keys, root.followText front = .ok keys
              ∧ (keys.getLastD root).followText back = .error e)
    ∧ ∀ (text : String) (path : DerivationPath), DerivationPath.parse text = .ok path →
      (255 < root.lineage.depth.toNat + path.indices.length
        ∨ (root.isPrivate = false ∧ ∃ index ∈ path.indices, isHardened index = true)
        ∨ (path.absolute = true ∧ root.isMaster = false)) →
      ∃ e, root.followText text = .error e
  := by
  refine ⟨?_, ?_, ?_⟩
  · intro text keys h
    obtain ⟨path, hpath, h⟩ := bind_eq_ok_iff.mp h
    exact ⟨path, hpath, isChain_of_descend (follow_eq_ok_iff.mp h).2⟩
  · intro text front back absolute before after htext hfront hback
    constructor
    · exact fun whole => followText_append_eq_ok_iff htext hfront hback
    · exact fun e => followText_append_eq_error_iff htext hfront hback
  · exact fun text path => exists_followText_error

/-- A child of a master key, and a key of the greatest depth, which has no children. -/
theorem followText_chain_ends :
  let root : ExtendedKey :=
    .privateKey ⟨⟨⟨1, by decide⟩, .mainnet⟩, .ofMaster (FixedBytes.zero 32) .mainnet⟩
  let deepest : ExtendedKey :=
    .publicKey ⟨⟨Point.generator, .testnet⟩,
      ⟨FixedBytes.zero 32, 255, FixedBytes.zero 4, 0, .testnet, by decide⟩⟩
  (∃ keys, root.followText "m/0" = .ok keys ∧ IsChain root [0] keys)
    ∧ (∀ e, root.followText "m/0/1h" = .error e
      ↔ root.followText "m/0" = .error e
        ∨ ∃ keys, root.followText "m/0" = .ok keys
          ∧ (keys.getLastD root).followText "1h" = .error e)
    ∧ ∃ e, deepest.followText "1" = .error e
  := by
  intro root deepest
  have hparse : ∀ text path, (DerivationPath.parse text).toOption = some path →
      DerivationPath.parse text = .ok path := fun _ _ => eq_ok_of_toOption
  have hwhole := hparse "m/0/1h" ⟨true, [0] ++ [0x80000001]⟩ (by decide +kernel)
  have hfront := hparse "m/0" ⟨true, [0]⟩ (by decide +kernel)
  have hback := hparse "1h" ⟨false, [0x80000001]⟩ (by decide +kernel)
  have hdeepest := hparse "1" ⟨false, [1]⟩ (by decide +kernel)
  have hroot : (root.followText "m/0").toOption.isSome = true := by decide +kernel
  obtain ⟨keys, hkeys⟩ := Option.isSome_iff_exists.mp hroot
  have hkeys := eq_ok_of_toOption hkeys
  obtain ⟨hchain, hparts, -⟩ := followText_chain root
  obtain ⟨path, hpath, hkeychain⟩ := hchain "m/0" keys hkeys
  rw [hfront] at hpath
  cases hpath
  refine ⟨⟨keys, hkeys, hkeychain⟩, (hparts _ _ _ _ _ _ hwhole hfront hback).2, ?_⟩
  exact (followText_chain deepest).2.2 "1" ⟨false, [1]⟩ hdeepest (.inl (by decide))

end Bitcoin.ExtendedKey
