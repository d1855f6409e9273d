import Bitcoin.Key.Public

/-!
# Private keys

A `PrivateKey` is a scalar that is not zero, on a network. Its text form, read by
`PrivateKey.ofWallet` and written by `PrivateKey.toWallet`, is Base58Check of the network's
version byte, the 32 bytes of the scalar and, when the public key is to be used compressed,
the marker `0x01`.
-/

namespace Bitcoin

/-- A private key. -/
structure PrivateKey where
  /-- The secret scalar. -/
  secret : NonzeroScalar
  /-- The network it is used on. -/
  network : Network
deriving DecidableEq

namespace PrivateKey

/-- The key that a scalar is. -/
def ofScalar (k : Scalar) (network : Network) : Except Error PrivateKey :=
  if h : k ≠ 0 then .ok ⟨⟨k, h⟩, network⟩ else .error (.domain .zeroKey)

/-- The key that 32 bytes denote. -/
def ofBytes (bytes : Bytes) (network : Network) : Except Error PrivateKey :=
  if bytes.length ≠ 32 then .error (.decoding (.privateKeyLength bytes.length))
  else do
    let k ← Scalar.ofBytesUpTo32 bytes
    ofScalar k network

/-- The key whose bytes are given in hexadecimal. -/
def ofHex (text : String) (network : Network) : Except Error PrivateKey := do
  let bytes ← decodeHex text
  ofBytes bytes network

/-- The 32 bytes of a key. -/
def toBytes (key : PrivateKey) : FixedBytes 32 :=
  key.secret.val.toBytes

/-- The text form of a key, with or without the marker. -/
def toWallet (key : PrivateKey) (compressed : Bool) : String :=
  Base58.encodeChecked
    (key.network.walletVersion :: (key.toBytes.toList ++ if compressed then [0x01] else []))

/-- The key in a text form. -/
def ofWallet (text : String) : Except Error PrivateKey := do
  let payload ← decodeBase58 text
  match payload with
  | [] => .error (.decoding (.walletKeyLength 0))
  | version :: rest =>
    if payload.length = 33 ∨ (payload.length = 34 ∧ rest.getLast? = some 0x01) then
      match Network.ofWalletVersion? version with
      | some network => ofBytes (rest.take 32) network
      | none => .error (.decoding (.walletKeyVersion version))
    else .error (.decoding (.walletKeyLength payload.length))

/-- The public key. -/
def publicKey (key : PrivateKey) : PublicKey :=
  ⟨Point.mulGenerator key.secret.val, key.network⟩

/-- The same scalar on a given network. -/
def withNetwork (key : PrivateKey) (network : Network) : PrivateKey :=
  { key with network }

/-- The signature of a digest, with its recovery id. -/
def signDigest (key : PrivateKey) (digest : Bytes) : Except Error Signature := do
  let digest ← checkDigest digest
  .ok (Ecdsa.sign key.secret digest)

/-- The signature of a message, which is hashed first or is itself a digest. -/
def sign (key : PrivateKey) (message : Bytes) (hashFirst : Bool) : Except Error Signature :=
  key.signDigest (if hashFirst then (Sha256.digest message).toList else message)

/-- A private key in displayed form, which does not show the scalar. -/
def display (key : PrivateKey) : String :=
  "PrivateKey \x7b public_key: " ++ key.publicKey.display ++ ", network: "
    ++ key.network.displayName ++ ", .. \x7d"

end PrivateKey

end Bitcoin
