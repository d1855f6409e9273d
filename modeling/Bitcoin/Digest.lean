import Bitcoin.Digest.Hmac
import Bitcoin.Digest.Ripemd160
import Bitcoin.Digest.Sha1

/-!
# Composed digests

`Digest.hash256` is SHA-256 applied twice, which names transactions and is signed.
`Digest.hash160` is RIPEMD-160 of SHA-256, which names keys and scripts.
-/

namespace Bitcoin.Digest

/-- SHA-256 of SHA-256. -/
def hash256 (message : Bytes) : FixedBytes 32 :=
  Sha256.digest (Sha256.digest message).toList

/-- RIPEMD-160 of SHA-256. -/
def hash160 (message : Bytes) : FixedBytes 20 :=
  Ripemd160.digest (Sha256.digest message).toList

end Bitcoin.Digest
