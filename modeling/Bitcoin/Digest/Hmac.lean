import Bitcoin.Digest.Sha256
import Bitcoin.Digest.Sha512

/-!
# Keyed hashing

`Hmac.sha256` and `Hmac.sha512` are the message authentication codes over the two hash
functions, and `Pbkdf2.sha512` stretches a password by iterating the second.
-/

namespace Bitcoin

namespace Hmac

/-- The authentication code over a hash function with a given block size. A key longer
than a block is hashed first. -/
def code {n : Nat} (blockSize : Nat) (hash : Bytes → FixedBytes n) (key message : Bytes) :
    FixedBytes n :=
  let short := if key.length > blockSize then (hash key).toList else key
  let padded := short ++ List.replicate (blockSize - short.length) (0 : UInt8)
  let inner := hash (padded.map (· ^^^ 0x36) ++ message)
  hash (padded.map (· ^^^ 0x5c) ++ inner.toList)

/-- The authentication code over SHA-256. -/
def sha256 (key message : Bytes) : FixedBytes 32 :=
  code 64 Sha256.digest key message

/-- The authentication code over SHA-512. -/
def sha512 (key message : Bytes) : FixedBytes 64 :=
  code 128 Sha512.digest key message

end Hmac

namespace Pbkdf2

/-- The sum without carry of two byte strings of one length. -/
def xor {n : Nat} (a b : FixedBytes n) : FixedBytes n :=
  ⟨List.zipWith (· ^^^ ·) a.toList b.toList, by simp⟩

/-- The sum of `rounds` further codes, each the code of the one before it. -/
def iterate (password : Bytes) : (rounds : Nat) → (last sum : FixedBytes 64) → FixedBytes 64
  | 0, _, sum => sum
  | rounds + 1, last, sum =>
    let next := Hmac.sha512 password last.toList
    iterate password rounds next (xor sum next)

/-- The first 64 bytes derived from a password and a salt, in at least one round. -/
def sha512 (password salt : Bytes) (rounds : Nat) : FixedBytes 64 :=
  let first := Hmac.sha512 password (salt ++ [0, 0, 0, 1])
  iterate password (rounds - 1) first first

end Pbkdf2

end Bitcoin
