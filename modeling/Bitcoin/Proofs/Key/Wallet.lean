import Bitcoin.Key.Private
import Bitcoin.Proofs.Address
import Bitcoin.Proofs.Signature.Der

/-!
# The texts of private keys

A key is read from its 32 bytes (`PrivateKey.ofBytes_eq_ok_iff`). Its text has the version byte of
the network in front of these and, for a public key that is to be used compressed, a marker behind
them. So a key has two texts, and it is read from these and from no others
(`PrivateKey.ofWallet_iff_toWallet`).
-/

namespace Bitcoin

/-- The version byte tells the network. -/
theorem Network.ofWalletVersion?_eq_some_iff {version : UInt8} {network : Network} :
  ofWalletVersion? version = some network ↔ version = network.walletVersion
  := by
  constructor
  · intro h
    simpa [eq_comm] using List.find?_some h
  · rintro rfl
    cases network <;> rfl

namespace PrivateKey

/-- A private key is read from the bytes of its scalar and no others. -/
theorem ofBytes_eq_ok_iff {bytes : Bytes} {network : Network} {key : PrivateKey} :
  ofBytes bytes network = .ok key ↔ bytes = key.toBytes.toList ∧ key.network = network
  := by
  constructor
  · intro h
    rw [ofBytes] at h
    split at h
    · cases h
    · next hlength =>
      obtain ⟨k, hk, h⟩ := bind_eq_ok_iff.mp h
      rw [ofScalar] at h
      split at h
      · cases h
        obtain ⟨-, hvalue⟩ := Signature.ofBytesUpTo32_eq_ok_iff.mp hk
        refine ⟨?_, rfl⟩
        change bytes = Bytes.ofNatBE 32 k.val
        rw [← hvalue, ← not_not.mp hlength, Bytes.ofNatBE_toNatBE]
      · cases h
  · rintro ⟨rfl, rfl⟩
    have hread : Scalar.ofBytesUpTo32 key.toBytes.toList = .ok key.secret.val := by
      apply Signature.ofBytesUpTo32_eq_ok_iff.mpr
      refine ⟨Nat.le_of_eq key.toBytes.length_eq, ?_⟩
      apply Bytes.toNatBE_ofNatBE_of_lt (Nat.lt_trans key.secret.val.isLt (by decide))
    rw [ofBytes, if_neg (not_not.mpr key.toBytes.length_eq), bind_of_eq_ok hread, ofScalar,
      dif_pos key.secret.property]

/-- What stands behind the scalar in a text. -/
def marker (compressed : Bool) : Bytes :=
  if compressed then [0x01] else []

/-- What a text is the Base58Check form of. -/
def walletBytes (key : PrivateKey) (compressed : Bool) : Bytes :=
  key.network.walletVersion :: (key.toBytes.toList ++ marker compressed)

theorem toWallet_eq (key : PrivateKey) (compressed : Bool) :
  key.toWallet compressed = Base58.encodeChecked (key.walletBytes compressed)
  := rfl

/-- The two lengths and the last byte tell whether there is a marker. -/
theorem exists_marker {rest : Bytes}
    (h : rest.length = 32 ∨ rest.length = 33 ∧ rest.getLast? = some 0x01) :
  ∃ compressed, rest = rest.take 32 ++ marker compressed
  := by
  rcases h with hlength | ⟨hlength, hlast⟩
  · use false
    rw [marker, if_neg Bool.false_ne_true, List.append_nil, ← hlength, List.take_length]
  · use true
    have hfront : rest.take 32 = rest.dropLast := by
      rw [List.dropLast_eq_take, hlength]
    rw [hfront, marker, if_pos rfl]
    exact (List.dropLast_append_getLast? _ hlast).symm

/-- The payload of a text tells whether there is a mark behind the scalar. -/
theorem length_append_marker {scalar : Bytes} (h : scalar.length = 32) (compressed : Bool) :
  (scalar ++ marker compressed).length = 32
    ∨ (scalar ++ marker compressed).length = 33
      ∧ (scalar ++ marker compressed).getLast? = some 0x01
  := by
  cases compressed with
  | false =>
    rw [marker, if_neg Bool.false_ne_true, List.append_nil]
    exact .inl h
  | true =>
    rw [marker, if_pos rfl, List.length_append, h, List.getLast?_concat]
    exact .inr ⟨rfl, rfl⟩

/-- A key is read from its two texts and from no others. -/
theorem ofWallet_eq_ok_iff {text : String} {key : PrivateKey} :
  ofWallet text = .ok key ↔ ∃ compressed, text = key.toWallet compressed
  := by
  constructor
  · intro hread
    obtain ⟨payload, hpayload, h⟩ := bind_eq_ok_iff.mp hread
    obtain rfl := decodeBase58_eq_ok_iff.mp hpayload
    clear hread
    split at h
    · cases h
    · next version rest =>
      split at h
      · next hform =>
        rw [List.length_cons, Nat.succ_inj, Nat.succ_inj] at hform
        split at h
        · next network hversion =>
          obtain ⟨compressed, hrest⟩ := exists_marker hform
          obtain ⟨hscalar, rfl⟩ := ofBytes_eq_ok_iff.mp h
          obtain rfl := Network.ofWalletVersion?_eq_some_iff.mp hversion
          use compressed
          rw [toWallet_eq, walletBytes, ← hscalar, ← hrest]
        · cases h
      · cases h
  · rintro ⟨compressed, rfl⟩
    have hlength := length_append_marker key.toBytes.length_eq compressed
    have hscalar : (key.toBytes.toList ++ marker compressed).take 32 = key.toBytes.toList :=
      List.take_left' key.toBytes.length_eq
    have hform : (key.walletBytes compressed).length = 33
        ∨ ((key.walletBytes compressed).length = 34
          ∧ (key.toBytes.toList ++ marker compressed).getLast? = some 0x01) := by
      rwa [walletBytes, List.length_cons, Nat.succ_inj, Nat.succ_inj]
    rw [ofWallet, bind_of_eq_ok (decodeBase58_eq_ok_iff.mpr (toWallet_eq key compressed).symm)]
    rw [walletBytes] at hform ⊢
    dsimp only
    rw [if_pos hform, Network.ofWalletVersion?_eq_some_iff.mpr rfl]
    dsimp only
    rw [hscalar]
    exact ofBytes_eq_ok_iff.mpr ⟨rfl, rfl⟩

/-- The two texts of a key are different. -/
theorem toWallet_ne (key : PrivateKey) :
  key.toWallet false ≠ key.toWallet true
  := by
  intro h
  have hread : decodeBase58 (key.toWallet false) = .ok (key.walletBytes true) :=
    decodeBase58_eq_ok_iff.mpr h.symm
  rw [decodeBase58_eq_ok_iff.mpr (toWallet_eq key false).symm] at hread
  have hlength := congrArg List.length (Except.ok.inj hread)
  simp [walletBytes, marker] at hlength

/-- A text is read as a key exactly if it is the text of that key without the marker or the one with
it, and these two differ. -/
theorem ofWallet_iff_toWallet (key : PrivateKey) :
  (∀ text, ofWallet text = .ok key ↔ text = key.toWallet false ∨ text = key.toWallet true)
    ∧ key.toWallet false ≠ key.toWallet true
  := by
  refine ⟨fun text => ?_, toWallet_ne key⟩
  rw [ofWallet_eq_ok_iff, Bool.exists_bool]

end PrivateKey

end Bitcoin
