import Bitcoin.Ecdsa
import Bitcoin.Network

/-!
# Public keys

A `PublicKey` is a point of the curve on a network. It is written compressed, in 33 bytes,
or uncompressed, in 65 bytes, and either form has its own hash and address.
-/

namespace Bitcoin

/-- A public key. -/
structure PublicKey where
  /-- The point, which is not the one at infinity. -/
  point : Point
  /-- The network it is used on. -/
  network : Network
deriving DecidableEq

/-- A digest of 32 bytes. -/
def checkDigest (digest : Bytes) : Except Error (FixedBytes 32) :=
  match FixedBytes.ofList? digest with
  | some digest => .ok digest
  | none => .error (.domain (.digestLength digest.length))

namespace PublicKey

/-- The key that a point is. -/
def ofPoint (point : Point) (network : Network) : Except Error PublicKey :=
  if point.isInfinity then .error (.domain .infinityKey) else .ok ⟨point, network⟩

/-- Whether a byte string has the length and the header of a public key. -/
def hasKeyForm : Bytes → Bool
  | [] => false
  | header :: rest =>
    (header == 0x04 && rest.length == 64)
      || ((header == 0x02 || header == 0x03) && rest.length == 32)

/-- The point that a byte string with the form of a public key denotes. -/
def decodePoint? : Bytes → Option Point
  | [] => none
  | header :: rest =>
    if header = 0x04 then
      Point.ofCoordinates? (Bytes.toNatBE (rest.take 32)) (Bytes.toNatBE (rest.drop 32))
    else Point.lift? (Bytes.toNatBE rest) (header = 0x03)

/-- The key that a byte string denotes. -/
def ofBytes (bytes : Bytes) (network : Network) : Except Error PublicKey :=
  match bytes with
  | [] => .error (.decoding .publicKeyEmpty)
  | header :: _ =>
    if hasKeyForm bytes then
      match decodePoint? bytes with
      | some point => .ok ⟨point, network⟩
      | none => .error (.domain .keyNotOnCurve)
    else .error (.decoding (.publicKeyHeader header bytes.length))

/-- The key whose bytes are given in hexadecimal. -/
def ofHex (text : String) (network : Network) : Except Error PublicKey := do
  let bytes ← decodeHex text
  ofBytes bytes network

/-- The bytes of a key, in either form. -/
def toBytes (key : PublicKey) (compressed : Bool) : Bytes :=
  if compressed then key.point.compressed else key.point.uncompressed

/-- The hash of either form. -/
def hash (key : PublicKey) (compressed : Bool) : FixedBytes 20 :=
  Digest.hash160 (key.toBytes compressed)

/-- The address of either form on a given network. -/
def addressOn (key : PublicKey) (compressed : Bool) (network : Network) : String :=
  Address.encode ⟨.keyHash, network, key.hash compressed⟩

/-- The address of either form. -/
def address (key : PublicKey) (compressed : Bool) : String :=
  key.addressOn compressed key.network

/-- Whether a signature of a digest was made with the private key. A byte string that is
no digest has no signature. -/
def verifyDigest (key : PublicKey) (digest : Bytes) (signature : Signature) : Bool :=
  match checkDigest digest with
  | .ok digest => Ecdsa.verify key.point digest signature.toSecp
  | .error _ => false

/-- Whether a signature of a message was made with the private key; the message is hashed
first or is itself a digest. -/
def verify (key : PublicKey) (message : Bytes) (signature : Signature) (hashFirst : Bool) :
    Bool :=
  key.verifyDigest (if hashFirst then (Sha256.digest message).toList else message) signature

/-- The key whose private key has made a signature of a digest. -/
def recover (digest : Bytes) (signature : Signature) (network : Network) :
    Except Error PublicKey := do
  let digest ← checkDigest digest
  match signature.recoveryId with
  | none => .error (.domain .noRecoveryId)
  | some id =>
    match Ecdsa.recover? digest signature id with
    | some point => .ok ⟨point, network⟩
    | none => .error (.domain .unrecoverable)

/-- A public key in displayed form. -/
def display (key : PublicKey) : String :=
  "PublicKey(" ++ Hex.encode (key.toBytes true) ++ ")"

end PublicKey

end Bitcoin
