import Bitcoin.Key.Private
import Bitcoin.Wire.CompactSize

/-!
# Signed messages

A person signs a text message with a key and names the key by its address.
`SignedMessage.sign` gives 65 bytes in Base64: a header, which holds the recovery id and
whether the address is that of the compressed key, and the compact signature.
`SignedMessage.verify` recovers the key and compares its address.
-/

namespace Bitcoin.SignedMessage

/-- What is signed for a message: a fixed heading, and the message behind its length. -/
def preimage (message : Bytes) : Bytes :=
  0x18 :: Text.utf8 "Bitcoin Signed Message:\n".toList ++ CompactSize.encodeBytes message

/-- The digest that is signed for a message. -/
def digest (message : Bytes) : FixedBytes 32 :=
  Digest.hash256 (preimage message)

/-- The signature of a message, in Base64. -/
def sign (key : PrivateKey) (message : Bytes) (compressed : Bool) : Except Error String := do
  let signature ← key.signDigest (digest message).toList
  match signature.recoveryId with
  | none => .error (.signing .noRecoveryId)
  | some id =>
    let header := UInt8.ofNat (27 + id.val + if compressed then 4 else 0)
    .ok (Base64.encode (header :: signature.toCompact))

/-- The signature, and whether the key is used compressed, in the decoded bytes of a signed
message. -/
def ofPacked? : Bytes → Option (Signature × Bool)
  | [] => none
  | header :: body => do
    if header < 27 ∨ 34 < header then none
    else
      let flags := header.toNat - 27
      let signature ← (Signature.ofCompact body).toOption
      let signature ← (signature.withRecoveryId (flags % 4)).toOption
      some (signature, decide (4 ≤ flags))

/-- Whether a text in Base64 is a signature of a message by the key with an address. -/
def verify (message : Bytes) (signed address : String) : Bool :=
  let verdict? : Option Bool := do
    let packed ← Base64.decode? signed
    let (signature, compressed) ← ofPacked? packed
    let named ← (Address.decode address).toOption
    let hash := (digest message).toList
    let key ← (PublicKey.recover hash signature named.network).toOption
    some (decide (key.address compressed = address) && key.verifyDigest hash signature)
  verdict?.getD false

end Bitcoin.SignedMessage
