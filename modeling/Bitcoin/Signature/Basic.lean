import Bitcoin.Base64
import Bitcoin.Curve.Scalar

/-!
# Signatures

A `Signature` is a pair of scalars, neither zero, and perhaps a recovery id that tells
which of up to four keys has made it. The compact form is the 64 bytes of the two scalars. The
second scalar may be replaced by its negative, and is brought below half of the order
(`Signature.toSecp`) for verification.
-/

namespace Bitcoin

/-- A scalar that is not zero. -/
abbrev NonzeroScalar := { k : Scalar // k ≠ 0 }

/-- The negative of a scalar that is not zero. -/
def NonzeroScalar.neg (k : NonzeroScalar) : NonzeroScalar :=
  ⟨-k.val, by
    intro h
    apply k.property
    have e : k.val + -k.val = k.val + 0 := by rw [h]
    grind⟩

/-- The scalar or its negative, whichever is not greater than half of the order. -/
def NonzeroScalar.low (k : NonzeroScalar) : NonzeroScalar :=
  if k.val.isHigh then k.neg else k

/-- A signature. -/
structure Signature where
  /-- The first coordinate of the nonce's point, modulo the order. -/
  r : NonzeroScalar
  /-- The proof of knowledge of the key. -/
  s : NonzeroScalar
  /-- Which key has made the signature, of those that could have. -/
  recoveryId : Option (Fin 4)
deriving DecidableEq

namespace Signature

/-- The signature with a given recovery id. -/
def withRecoveryId (signature : Signature) (id : Nat) : Except Error Signature :=
  if h : id < 4 then .ok { signature with recoveryId := some ⟨id, h⟩ }
  else .error (.domain .recoveryId)

/-- The signature with given components. -/
def ofScalars (r s : Scalar) (id : Option Nat) : Except Error Signature :=
  if hr : r ≠ 0 then
    if hs : s ≠ 0 then
      match id with
      | none => .ok ⟨⟨r, hr⟩, ⟨s, hs⟩, none⟩
      | some id => withRecoveryId ⟨⟨r, hr⟩, ⟨s, hs⟩, none⟩ id
    else .error (.domain .zeroComponent)
  else .error (.domain .zeroComponent)

/-- The 64 bytes of the two scalars. -/
def toCompact (signature : Signature) : Bytes :=
  signature.r.val.toBytes.toList ++ signature.s.val.toBytes.toList

/-- The signature that 64 bytes denote. -/
def ofCompact (bytes : Bytes) : Except Error Signature := do
  if bytes.length ≠ 64 then .error (.decoding (.signatureLength bytes.length))
  else
    let r ← Scalar.ofBytesUpTo32 (bytes.take 32)
    let s ← Scalar.ofBytesUpTo32 (bytes.drop 32)
    ofScalars r s none

/-- The form in which a signature is verified, whose second component is low. -/
def toSecp (signature : Signature) : Signature :=
  { signature with s := signature.s.low }

end Signature

end Bitcoin
