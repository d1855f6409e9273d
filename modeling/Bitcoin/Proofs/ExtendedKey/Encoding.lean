import Bitcoin.Proofs.ExtendedKey.Derivation
import Bitcoin.Proofs.Key
import Bitcoin.Proofs.Key.Wallet
import Bitcoin.Proofs.Signature.Der
import Bitcoin.Proofs.Wire.Reader

/-!
# The serialized form of extended keys

A key is sound if it has a point and if it is used on the network of its tree
(`ExtendedKey.Sound`). The sound keys are those that can be read, and each is read from its
serialized form and from no other bytes (`ExtendedKey.ofBytes_eq_ok_iff`). Every key that can be
obtained is sound (`ExtendedKey.Reachable.sound`).
-/

namespace Bitcoin

open Reader

namespace ExtendedKey

/-! ### The parts -/

/-- A version word stands for the sort and the network that it is the version word of. -/
theorem ofVersion?_eq_some_iff {version : UInt32} {isPrivate : Bool} {network : Network} :
  ofVersion? version = some (isPrivate, network)
    ↔ version = if isPrivate then network.extendedPrivateVersion
      else network.extendedPublicVersion
  := by
  constructor
  · intro h
    simpa using List.find?_some h
  · rintro rfl
    cases isPrivate
    · cases network <;> rfl
    · cases network <;> rfl

/-- A private key is read from its material alone, and is on the network that the version has
named. -/
theorem ofPrivateMaterial_eq_ok_iff
    {material : Bytes} {network : Network} {lineage : Lineage} {key : ExtendedKey} :
  ofPrivateMaterial material network lineage = .ok key
    ↔ ∃ inner : PrivateKey, inner.network = network ∧ key = .privateKey ⟨inner, lineage⟩
      ∧ material = key.material
  := by
  constructor
  · intro h
    rw [ofPrivateMaterial] at h
    split at h
    · cases h
    · next hhead =>
      obtain ⟨inner, hinner, h⟩ := bind_eq_ok_iff.mp h
      obtain ⟨hbytes, hnetwork⟩ := PrivateKey.ofBytes_eq_ok_iff.mp hinner
      cases h
      refine ⟨inner, hnetwork, rfl, ?_⟩
      cases material with
      | nil => apply absurd (by decide) hhead
      | cons header rest =>
        obtain rfl := not_not.mp hhead
        exact congrArg _ hbytes
  · rintro ⟨inner, rfl, rfl, rfl⟩
    have hread : PrivateKey.ofBytes inner.toBytes.toList inner.network = .ok inner :=
      PrivateKey.ofBytes_eq_ok_iff.mpr ⟨rfl, rfl⟩
    rw [ofPrivateMaterial, if_neg (by simp [material])]
    apply bind_of_eq_ok hread

/-- A public key is read from its material alone, which denotes a point that is not at infinity,
and is on the network that the version has named. -/
theorem ofPublicMaterial_eq_ok_iff
    {material : Bytes} {network : Network} {lineage : Lineage} {key : ExtendedKey}
    (hlength : material.length = 33) :
  ofPublicMaterial material network lineage = .ok key
    ↔ ∃ inner : PublicKey, inner.point ≠ .infinity ∧ inner.network = network
      ∧ key = .publicKey ⟨inner, lineage⟩ ∧ material = key.material
  := by
  constructor
  · intro h
    rw [ofPublicMaterial] at h
    split at h
    · cases h
    · next hhead =>
      obtain ⟨inner, hinner, h⟩ := bind_eq_ok_iff.mp h
      obtain ⟨_, point, hpoint, rfl⟩ := PublicKey.ofBytes_eq_ok_iff.mp hinner
      cases h
      cases material with
      | nil => cases hlength
      | cons header rest =>
        have hheader : header = 0x02 ∨ header = 0x03 := by
          rw [not_and_or, not_not, not_not] at hhead
          apply hhead
        obtain ⟨hfinite, hbytes⟩ :=
          PublicKey.compressed_of_decodePoint? hheader (Nat.succ.inj hlength) hpoint
        exact ⟨⟨point, network⟩, hfinite, rfl, rfl, hbytes.symm⟩
  · rintro ⟨inner, hfinite, rfl, rfl, rfl⟩
    have hread : PublicKey.ofBytes (inner.toBytes true) inner.network = .ok inner :=
      PublicKey.ofBytes_toBytes hfinite true inner.network
    have hhead : ¬ ((inner.toBytes true).headD 0 ≠ 0x02 ∧ (inner.toBytes true).headD 0 ≠ 0x03) := by
      obtain ⟨header, rest, hbytes, hheader, _⟩ := Point.exists_compressed hfinite
      rw [PublicKey.toBytes, if_pos rfl, hbytes, not_and_or, not_not, not_not]
      apply hheader
    rw [ofPublicMaterial, material, if_neg hhead]
    apply bind_of_eq_ok hread

/-! ### The whole form -/

/-- Whether a key has a point, and is used on the network of its tree. -/
structure Sound (key : ExtendedKey) : Prop where
  point : key.neutered.key.point ≠ .infinity
  network : key.neutered.key.network = key.lineage.network

/-- The two sorts of keys have material of the same length. -/
theorem length_material {key : ExtendedKey} (h : key.Sound) :
  key.material.length = 33
  := by
  cases key with
  | privateKey key =>
    rw [material, List.length_cons, key.key.toBytes.length_eq]
  | publicKey key =>
    obtain ⟨header, rest, hbytes, _, hlength⟩ := Point.exists_compressed h.point
    change key.key.point.compressed.length = 33
    rw [neutered] at hbytes
    rw [hbytes, List.length_cons, hlength]

/-- A key is made from its own parts and from no others. -/
theorem ofParts_eq_ok_iff
    {version : UInt32} {depth : UInt8} {parent : FixedBytes 4} {index : UInt32}
    {chainCode : FixedBytes 32} {bytes : Bytes} (hlength : bytes.length = 33) {key : ExtendedKey} :
  ofParts version depth parent index chainCode bytes = .ok key
    ↔ key.Sound ∧ version = key.version ∧ depth = key.lineage.depth
      ∧ parent = key.lineage.parent ∧ index = key.lineage.index
      ∧ chainCode = key.lineage.chainCode ∧ bytes = key.material
  := by
  constructor
  · intro h
    rw [ofParts] at h
    split at h
    · cases h
    · next isPrivate network hversion =>
      obtain ⟨lineage, hlineage, hkey⟩ := bind_eq_ok_iff.mp h
      obtain ⟨rfl, rfl, rfl, rfl, rfl⟩ := Lineage.ofMarks_eq_ok_iff.mp hlineage
      obtain rfl := ofVersion?_eq_some_iff.mp hversion
      cases isPrivate with
      | true =>
        obtain ⟨inner, hnetwork, rfl, hbytes⟩ := ofPrivateMaterial_eq_ok_iff.mp hkey
        exact ⟨⟨inner.publicKey_ne_infinity, hnetwork⟩, rfl, rfl, rfl, rfl, rfl, hbytes⟩
      | false =>
        obtain ⟨inner, hfinite, hnetwork, rfl, hbytes⟩ :=
          (ofPublicMaterial_eq_ok_iff hlength).mp hkey
        exact ⟨⟨hfinite, hnetwork⟩, rfl, rfl, rfl, rfl, rfl, hbytes⟩
  · rintro ⟨hsound, rfl, rfl, rfl, rfl, rfl, rfl⟩
    have hlineage : ∀ lineage : Lineage, Lineage.ofMarks lineage.chainCode lineage.depth
        lineage.parent lineage.index lineage.network = .ok lineage :=
      fun lineage => Lineage.ofMarks_eq_ok_iff.mpr ⟨rfl, rfl, rfl, rfl, rfl⟩
    cases key with
    | privateKey key =>
      have hversion : ofVersion? (version (.privateKey key)) = some (true, key.lineage.network) :=
        ofVersion?_eq_some_iff.mpr rfl
      rw [ofParts, hversion]
      dsimp only
      rw [lineage, bind_of_eq_ok (hlineage key.lineage), if_pos rfl]
      exact ofPrivateMaterial_eq_ok_iff.mpr ⟨key.key, hsound.network, rfl, rfl⟩
    | publicKey key =>
      have hversion : ofVersion? (version (.publicKey key)) = some (false, key.lineage.network) :=
        ofVersion?_eq_some_iff.mpr rfl
      rw [ofParts, hversion]
      dsimp only
      rw [lineage, bind_of_eq_ok (hlineage key.lineage), if_neg Bool.false_ne_true]
      exact (ofPublicMaterial_eq_ok_iff hlength).mpr
        ⟨key.key, hsound.point, hsound.network, rfl, rfl⟩

theorem length_toBytes {key : ExtendedKey} (h : key.Sound) :
  key.toBytes.length = 78
  := by
  simp [toBytes, length_material h, FixedBytes.length_eq]

/-- A sound key is read back from its bytes, and nothing behind them is taken. -/
theorem takes_read {key : ExtendedKey} (h : key.Sound) :
  Takes read key.toBytes (.ok key)
  := by
  have hmaterial : Takes (take 33) key.material key.material := by
    have htake := takes_take key.material
    rwa [length_material h] at htake
  have hparts : ofParts (UInt32.ofNat key.version.toNat) key.lineage.depth key.lineage.parent
      (UInt32.ofNat key.lineage.index.toNat) key.lineage.chainCode key.material = .ok key := by
    rw [UInt32.ofNat_toNat, UInt32.ofNat_toNat]
    exact (ofParts_eq_ok_iff (length_material h)).mpr ⟨h, rfl, rfl, rfl, rfl, rfl, rfl⟩
  have hjudged := hmaterial.map (ofParts (UInt32.ofNat key.version.toNat) key.lineage.depth
    key.lineage.parent (UInt32.ofNat key.lineage.index.toNat) key.lineage.chainCode)
  rw [hparts] at hjudged
  simp only [toBytes, List.append_assoc]
  apply (takes_natBE key.version.toNat_lt).bind
  apply (takes_u8 key.lineage.depth).bind
  apply (takes_takeFixed key.lineage.parent).bind
  apply (takes_natBE key.lineage.index.toNat_lt).bind
  apply (takes_takeFixed key.lineage.chainCode).bind
  apply hjudged

/-- What is read is a sound key whose bytes are those that were taken. -/
theorem takesOnly_read :
  TakesOnly read fun bytes result =>
    ∀ key, result = .ok key → key.Sound ∧ bytes = key.toBytes
  := by
  apply (takesOnly_natBE 4).bind
  rintro _ version ⟨hversion, rfl⟩
  apply takesOnly_u8.bind
  rintro _ depth rfl
  apply (takesOnly_takeFixed 4).bind
  rintro _ parent rfl
  apply (takesOnly_natBE 4).bind
  rintro _ index ⟨hindex, rfl⟩
  apply (takesOnly_takeFixed 32).bind
  rintro _ chainCode rfl
  apply (takesOnly_take 33).map
  rintro _ material ⟨rfl, hlength⟩ key hkey
  obtain ⟨hsound, hword, rfl, rfl, hnumber, rfl, rfl⟩ := (ofParts_eq_ok_iff hlength).mp hkey
  refine ⟨hsound, ?_⟩
  simp only [toBytes, List.append_assoc]
  rw [← hword, ← hnumber, UInt32.toNat_ofNat_of_lt' hversion, UInt32.toNat_ofNat_of_lt' hindex]

/-- A sound key is read from its serialized form, and nothing else is read from any bytes. -/
theorem ofBytes_eq_ok_iff {bytes : Bytes} {key : ExtendedKey} :
  ofBytes bytes = .ok key ↔ key.Sound ∧ bytes = key.toBytes
  := by
  constructor
  · intro h
    rw [ofBytes] at h
    split at h
    · cases h
    · next hlength =>
      obtain ⟨⟨result, rest⟩, hrun, hkey⟩ := bind_eq_ok_iff.mp h
      obtain ⟨front, rfl, hform⟩ := takesOnly_read.runOn hrun
      obtain ⟨hsound, rfl⟩ := hform key hkey
      rw [not_not, List.length_append, length_toBytes hsound] at hlength
      obtain rfl : rest = [] := List.eq_nil_of_length_eq_zero (by omega)
      exact ⟨hsound, List.append_nil _⟩
  · rintro ⟨hsound, rfl⟩
    have hrun := (takes_read hsound).runOn []
    rw [List.append_nil] at hrun
    rw [ofBytes, if_neg (not_not.mpr (length_toBytes hsound)), bind_of_eq_ok hrun]

/-! ### Keys that can be obtained -/

/-- The keys that can be obtained: from a seed, from a serialized form, as the public side of
another key, and as a child of another key. -/
inductive Reachable : ExtendedKey → Prop where
  | ofSeed {seed : Bytes} {network : Network} {key : ExtendedPrivateKey}
      (h : ExtendedPrivateKey.ofSeed seed network = .ok key) : Reachable (.privateKey key)
  | ofBytes {bytes : Bytes} {key : ExtendedKey} (h : ExtendedKey.ofBytes bytes = .ok key) :
      Reachable key
  | neutered {key : ExtendedKey} (h : Reachable key) : Reachable (.publicKey key.neutered)
  | child {parent : ExtendedKey} {index : UInt32} {key : ExtendedKey} (h : Reachable parent)
      (hchild : parent.child index = .ok key) : Reachable key

/-- Master keys are sound. -/
theorem sound_of_ofSeed {seed : Bytes} {network : Network} {key : ExtendedPrivateKey}
    (h : ExtendedPrivateKey.ofSeed seed network = .ok key) :
  Sound (.privateKey key)
  := by
  obtain ⟨⟨k, chainCode⟩, _, h⟩ := bind_eq_ok_iff.mp h
  obtain ⟨inner, hinner, h⟩ := bind_eq_ok_iff.mp h
  cases h
  rw [PrivateKey.ofScalar] at hinner
  split at hinner
  · next hk =>
    cases hinner
    exact ⟨Point.mulGenerator_ne_infinity hk, rfl⟩
  · cases hinner

/-- What a key is a child of need not be sound. -/
theorem sound_of_child {parent key : ExtendedKey} {index : UInt32}
    (h : parent.child index = .ok key) :
  key.Sound
  := by
  cases parent with
  | privateKey parent =>
    obtain ⟨inner, hinner, rfl⟩ := map_eq_ok_iff.mp h
    obtain ⟨_, _, _, _, hnetwork, hlineage⟩ := ExtendedPrivateKey.of_child_eq_ok hinner
    refine ⟨inner.key.publicKey_ne_infinity, ?_⟩
    apply hnetwork.trans (Lineage.child_eq_ok_iff.mp hlineage).2.2.2.2.2
  | publicKey parent =>
    obtain ⟨inner, hinner, rfl⟩ := map_eq_ok_iff.mp h
    obtain ⟨_, _, _, _, _, hfinite, hnetwork, hlineage⟩ := ExtendedPublicKey.of_child_eq_ok hinner
    refine ⟨hfinite, ?_⟩
    apply hnetwork.trans (Lineage.child_eq_ok_iff.mp hlineage).2.2.2.2.2

/-- Each way to obtain a key gives a sound one. -/
theorem Reachable.sound {key : ExtendedKey} (h : key.Reachable) :
  key.Sound
  := by
  induction h with
  | ofSeed h => apply sound_of_ofSeed h
  | ofBytes h => apply (ofBytes_eq_ok_iff.mp h).1
  | @neutered key _ ih =>
    cases key with
    | privateKey key => exact ⟨ih.point, ih.network⟩
    | publicKey key => apply ih
  | child _ hchild => apply sound_of_child hchild

/-- The serialized form is a bijection between the keys that can be obtained and the byte strings
that are read: a key is read back from its form, and is written as the bytes it is read from. At
depth zero it has no marks of a parent. -/
theorem toBytes_bijective :
  (∀ key : ExtendedKey, key.Reachable →
      (key.lineage.depth = 0 → key.lineage.parent = FixedBytes.zero 4 ∧ key.lineage.index = 0)
        ∧ ofBytes key.toBytes = .ok key)
    ∧ ∀ (bytes : Bytes) (key : ExtendedKey), ofBytes bytes = .ok key → key.toBytes = bytes
  := by
  constructor
  · intro key h
    exact ⟨key.lineage.master, ofBytes_eq_ok_iff.mpr ⟨h.sound, rfl⟩⟩
  · intro bytes key h
    exact (ofBytes_eq_ok_iff.mp h).2.symm

/-- The public side of a master key that comes from a seed, and a master key that is read from
bytes. -/
theorem toBytes_bijective_masters :
  (∃ key, ExtendedPrivateKey.ofSeed (List.replicate 16 0) .testnet = .ok key
      ∧ Reachable (.publicKey key.publicKey) ∧ key.publicKey.lineage.depth = 0
      ∧ key.publicKey.lineage.index = 0
      ∧ ofBytes (toBytes (.publicKey key.publicKey)) = .ok (.publicKey key.publicKey))
    ∧ let bytes : Bytes := [0x04, 0x88, 0xb2, 0x1e] ++ List.replicate 41 0
        ++ Point.generator.compressed
      let key : ExtendedKey := .publicKey
        ⟨⟨Point.generator, .mainnet⟩, .ofMaster (FixedBytes.zero 32) .mainnet⟩
      ofBytes bytes = .ok key ∧ key.toBytes = bytes
  := by
  constructor
  · have hseed : (ExtendedPrivateKey.ofSeed (List.replicate 16 0) .testnet).toOption.isSome
        = true := by
      decide +kernel
    obtain ⟨key, hkey⟩ := Option.isSome_iff_exists.mp hseed
    have hkey := eq_ok_of_toOption hkey
    have hreachable : Reachable (.publicKey key.publicKey) := .neutered (.ofSeed hkey)
    have hdepth : key.publicKey.lineage.depth = 0 := by
      obtain ⟨_, _, h⟩ := bind_eq_ok_iff.mp hkey
      obtain ⟨_, _, h⟩ := bind_eq_ok_iff.mp h
      cases h
      rfl
    obtain ⟨hmaster, hread⟩ := toBytes_bijective.1 _ hreachable
    exact ⟨key, hkey, hreachable, hdepth, (hmaster hdepth).2, hread⟩
  · intro bytes key
    have hread : ofBytes bytes = .ok key := by
      apply eq_ok_of_toOption
      decide +kernel
    exact ⟨hread, toBytes_bijective.2 bytes key hread⟩

end ExtendedKey

end Bitcoin
