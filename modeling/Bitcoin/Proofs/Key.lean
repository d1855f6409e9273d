import Bitcoin.Key.Private
import Bitcoin.Proofs.Curve.Encoding
import Bitcoin.Proofs.Ecdsa
import Bitcoin.Proofs.Except

/-!
# Keys and digests

On a digest of 32 bytes, signing and verifying with keys is what the scalar and the point
of the keys do (`PrivateKey.signDigest_toList`, `PublicKey.verifyDigest_toList`). So a public
key verifies what its private key signs (`PrivateKey.verifyDigest_of_signDigest`).
-/

namespace Bitcoin

/-- The bytes of a digest are as many as they must be. -/
theorem checkDigest_toList (digest : FixedBytes 32) :
  checkDigest digest.toList = .ok digest
  := by
  rw [checkDigest, FixedBytes.ofList?, dif_pos digest.length_eq]

/-- Verifying brings the second component of a signature to the lower half first. -/
theorem PublicKey.verifyDigest_toList (key : PublicKey) (digest : FixedBytes 32)
    (signature : Signature) :
  key.verifyDigest digest.toList signature = Ecdsa.verify key.point digest signature.toSecp
  := by
  rw [verifyDigest, checkDigest_toList]

/-- Verifying does not look at the recovery id. -/
theorem PublicKey.verifyDigest_withoutId (key : PublicKey) (digest : Bytes)
    (signature : Signature) :
  key.verifyDigest digest { signature with recoveryId := none } = key.verifyDigest digest signature
  := rfl

/-- A verdict on a signature of a digest depends on the point of the key only. -/
theorem PublicKey.verifyDigest_of_point_eq {key key' : PublicKey} (h : key.point = key'.point)
    (digest : Bytes) (signature : Signature) :
  key.verifyDigest digest signature = key'.verifyDigest digest signature
  := by
  rw [verifyDigest, verifyDigest, h]

namespace PrivateKey

/-- Every digest is signed. -/
theorem signDigest_toList (key : PrivateKey) (digest : FixedBytes 32) :
  key.signDigest digest.toList = .ok (Ecdsa.sign key.secret digest)
  := by
  rw [signDigest, bind_of_eq_ok (checkDigest_toList digest)]

/-- The signature of a digest is the only one that is made of it. -/
theorem signDigest_eq_ok_iff {key : PrivateKey} {digest : FixedBytes 32} {signature : Signature} :
  key.signDigest digest.toList = .ok signature ↔ Ecdsa.sign key.secret digest = signature
  := by
  rw [signDigest_toList, Except.ok.injEq]

end PrivateKey

/-- A key is read from the bytes that have the form of a key and denote a point. -/
theorem PublicKey.ofBytes_eq_ok_iff {bytes : Bytes} {network : Network} {key : PublicKey} :
  ofBytes bytes network = .ok key
    ↔ hasKeyForm bytes = true ∧ ∃ point, decodePoint? bytes = some point ∧ key = ⟨point, network⟩
  := by
  cases bytes with
  | nil =>
    constructor
    · rintro ⟨⟩
    · rintro ⟨⟨⟩, _⟩
  | cons header rest =>
    rw [ofBytes]
    split
    · next hform =>
      rw [and_iff_right hform]
      cases decodePoint? (header :: rest) with
      | none =>
        constructor
        · rintro ⟨⟩
        · rintro ⟨_, ⟨⟩, _⟩
      | some point =>
        constructor
        · rintro ⟨⟩
          exact ⟨point, rfl, rfl⟩
        · rintro ⟨_, ⟨⟩, rfl⟩
          rfl
    · next hform =>
      constructor
      · rintro ⟨⟩
      · exact fun h => absurd h.1 hform

/-- A key is read back from both its forms. -/
theorem PublicKey.ofBytes_toBytes {key : PublicKey} (hkey : key.point ≠ .infinity)
    (compressed : Bool) (network : Network) :
  ofBytes (key.toBytes compressed) network = .ok ⟨key.point, network⟩
  := by
  apply ofBytes_eq_ok_iff.mpr
  use hasKeyForm_toBytes hkey compressed, key.point
  exact ⟨decodePoint?_toBytes hkey compressed, rfl⟩

namespace PrivateKey

theorem point_publicKey (key : PrivateKey) :
  key.publicKey.point = Point.mulGenerator key.secret.val
  := rfl

/-- No private key has the neutral element as its public point. -/
theorem publicKey_ne_infinity (key : PrivateKey) :
  key.publicKey.point ≠ .infinity
  := Point.mulGenerator_ne_infinity key.secret.property

/-- Private keys with the same public key have the same secret scalar. -/
theorem secret_eq_of_point_eq {key key' : PrivateKey}
    (h : key.publicKey.point = key'.publicKey.point) :
  key.secret = key'.secret
  := Subtype.ext (Point.mulGenerator_injective h)

/-- The signature that a key makes is verified by the point of its public key, as it is. -/
theorem verify_of_signDigest {key : PrivateKey} {digest : FixedBytes 32} {signature : Signature}
    (h : key.signDigest digest.toList = .ok signature) :
  Ecdsa.verify key.publicKey.point digest signature = true
  := by
  rw [point_publicKey, ← signDigest_eq_ok_iff.mp h]
  apply Ecdsa.verify_sign

/-- The signature that a key makes is verified by every public key with the point of its own. -/
theorem verifyDigest_of_signDigest {key : PrivateKey} {digest : FixedBytes 32}
    {signature : Signature} (h : key.signDigest digest.toList = .ok signature)
    {publicKey : PublicKey} (hpoint : publicKey.point = key.publicKey.point) :
  publicKey.verifyDigest digest.toList signature = true
  := by
  have hverify := verify_of_signDigest h
  rw [← signDigest_eq_ok_iff.mp h] at hverify ⊢
  rw [PublicKey.verifyDigest_toList, Ecdsa.toSecp_sign, hpoint]
  apply hverify

/-- A public key that is not that of the signer does not verify a signature, unless its first
component is very small or makes the two keys opposite. -/
theorem verifyDigest_sign_eq_false {key rival : PrivateKey} {digest : FixedBytes 32} {r : Scalar}
    (hsign : (Ecdsa.sign key.secret digest).r.val = r) (hr : Curve.prime ≤ r.val + Curve.order)
    (hne : rival.secret ≠ key.secret)
    (hopposite : Ecdsa.digestScalar digest + r * rival.secret.val
      ≠ -(Ecdsa.digestScalar digest + r * key.secret.val))
    {publicKey : PublicKey} (hpoint : publicKey.point = rival.publicKey.point) :
  publicKey.verifyDigest digest.toList (Ecdsa.sign key.secret digest) = false
  := by
  subst hsign
  rw [← Bool.not_eq_true, PublicKey.verifyDigest_toList, hpoint]
  intro hrival
  have hown := Ecdsa.verify_sign key.secret digest
  rw [← Ecdsa.toSecp_sign] at hown
  rcases Ecdsa.eq_or_opposite_of_verify hr hown hrival with hsame | hsame
  · exact hne (Subtype.ext hsame)
  · exact hopposite hsame

/-- The public key is read back from both its forms. -/
theorem ofBytes_publicKey (key : PrivateKey) (compressed : Bool) (network : Network) :
  PublicKey.ofBytes (key.publicKey.toBytes compressed) network
    = .ok ⟨key.publicKey.point, network⟩
  := PublicKey.ofBytes_toBytes key.publicKey_ne_infinity compressed network

/-- Both forms of a public key are recognised as such. -/
theorem hasKeyForm_publicKey (key : PrivateKey) (compressed : Bool) :
  PublicKey.hasKeyForm (key.publicKey.toBytes compressed) = true
  := PublicKey.hasKeyForm_toBytes key.publicKey_ne_infinity compressed

end PrivateKey

end Bitcoin
