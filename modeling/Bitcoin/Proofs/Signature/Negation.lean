import Bitcoin.Machine.Signature
import Bitcoin.Proofs.Curve.Scalar
import Bitcoin.Proofs.Signature.Der

/-!
# Signatures with the opposite second component

A signature is brought into the form with the lower one of its second component and the negative
before it is verified (`Signature.toSecp`), and the verifier refuses any other. So a key does not
tell a signature from the one with the negative (`Signature.negated`), nor does a script, where
the negative stands in its own encoding, perhaps of another length
(`Signature.negated_verifies_alike`).
-/

namespace Bitcoin

namespace NonzeroScalar

theorem neg_neg (k : NonzeroScalar) :
  k.neg.neg = k
  := by
  apply Subtype.ext
  change - -k.val = k.val
  grind

/-- The lower one of a scalar and its negative is that of the negative and the scalar. -/
theorem low_neg (k : NonzeroScalar) :
  k.neg.low = k.low
  := by
  have hneg : k.neg.val.isHigh = !k.val.isHigh := Scalar.isHigh_neg k.property
  rw [low, low, hneg, neg_neg]
  cases k.val.isHigh with
  | false => rfl
  | true => rfl

end NonzeroScalar

/-- The signature with the negative of the second component. -/
def Signature.negated (signature : Signature) : Signature :=
  { signature with s := signature.s.neg }

/-- Two signatures have the same form for the verifier if their first components are equal and so
are the lower ones of the second components and their negatives; their recovery ids may differ. -/
theorem PublicKey.verifyDigest_congr {signature signature' : Signature}
    (hr : signature'.r = signature.r) (hs : signature'.s.low = signature.s.low) (key : PublicKey)
    (digest : Bytes) :
  key.verifyDigest digest signature' = key.verifyDigest digest signature
  := by
  rw [verifyDigest, verifyDigest]
  cases checkDigest digest with
  | error e => rfl
  | ok digest =>
    dsimp only [Ecdsa.verify, Signature.toSecp]
    rw [hr, hs]

/-- So they are good or bad in a script alike. -/
theorem Spending.checkSignature_congr {der der' : Bytes} {signature signature' : Signature}
    (h : Signature.ofDer der = .ok signature) (h' : Signature.ofDer der' = .ok signature')
    (hr : signature'.r = signature.r) (hs : signature'.s.low = signature.s.low)
    (spending : Spending) (subScript : Script) (hashType : UInt8) (key : Bytes) :
  spending.checkSignature subScript (der' ++ [hashType]) key
    = spending.checkSignature subScript (der ++ [hashType]) key
  := by
  rw [checkSignature, checkSignature, List.getLast?_concat, List.getLast?_concat]
  dsimp only
  rw [List.dropLast_concat, List.dropLast_concat, h, h']
  cases PublicKey.ofBytes key .mainnet with
  | error e => rfl
  | ok publicKey =>
    dsimp only
    simp only [PublicKey.verifyDigest_congr hr hs]

namespace Signature

/-- A signature and the one with the second component `n - s` are verified alike, by every key,
for every message, hashed first or not, and with any recovery ids. So they are in a script: the
encoding of the one may stand in the place of that of the other, for every transaction, input, hash
type, key and script that is signed. -/
theorem negated_verifies_alike (signature : Signature) (id : Option (Fin 4)) :
  signature.negated.s.val.val = Curve.order - signature.s.val.val
    ∧ (∀ (key : PublicKey) (message : Bytes) (hashFirst : Bool),
      key.verify message ⟨signature.r, signature.s.neg, id⟩ hashFirst
        = key.verify message signature hashFirst)
    ∧ ∀ der, ofDer der = .ok signature →
      ofDer signature.negated.toDer = .ok signature.negated
        ∧ ∀ (spending : Spending) (subScript : Script) (hashType : UInt8) (key : Bytes),
          spending.checkSignature subScript (signature.negated.toDer ++ [hashType]) key
            = spending.checkSignature subScript (der ++ [hashType]) key
  := by
  have hlow : signature.s.neg.low = signature.s.low := NonzeroScalar.low_neg signature.s
  refine ⟨Scalar.val_neg signature.s.property, ?_, ?_⟩
  · intro key message hashFirst
    exact @PublicKey.verifyDigest_congr signature ⟨_, _, id⟩ rfl hlow key _
  · intro der hder
    have hnegated : ofDer signature.negated.toDer = .ok signature.negated :=
      ofDer_eq_ok_iff.mpr ⟨rfl, (toDer_of_ofDer hder).2⟩
    refine ⟨hnegated, ?_⟩
    exact Spending.checkSignature_congr hder hnegated rfl hlow

/-- The encoding of a signature of two ones has 8 bytes; that of its negative has 40. -/
theorem negated_verifies_alike_ones :
  let one : NonzeroScalar := ⟨1, by decide⟩
  let der : Bytes := [0x30, 6, 2, 1, 1, 2, 1, 1]
  let input : Input := ⟨⟨FixedBytes.zero 32, 0⟩, .encoded [], 0⟩
  let spending : Spending := ⟨⟨1, [input], [], 0⟩, 0, by decide⟩
  let negated : Signature := Signature.negated ⟨one, one, none⟩
  ofDer der = .ok ⟨one, one, none⟩ ∧ negated.toDer.length = 40
    ∧ spending.checkSignature (.encoded [0xac]) (negated.toDer ++ [1]) Point.generator.compressed
      = spending.checkSignature (.encoded [0xac]) (der ++ [1]) Point.generator.compressed
  := by
  intro one der input spending negated
  have hder : ofDer der = .ok ⟨one, one, none⟩ := by decide
  have hlength : negated.toDer.length = 40 := by decide
  obtain ⟨-, -, hscript⟩ := negated_verifies_alike ⟨one, one, none⟩ none
  obtain ⟨-, hcheck⟩ := hscript der hder
  exact ⟨hder, hlength, hcheck spending _ 1 _⟩

end Signature

end Bitcoin
