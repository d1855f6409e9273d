import Bitcoin.Curve.Point
import Bitcoin.Signature.Der

/-!
# The elliptic curve signature algorithm

`Ecdsa.sign` signs a digest of 32 bytes with a secret scalar. The nonce is taken from a chain
of authentication codes that is derived from the two (`Ecdsa.NonceChain`), so that a signature
is a function of its inputs, and the second component is never high. `Ecdsa.verify` refuses a
high second component. `Ecdsa.recover?` finds the signer's point from a digest and a signature
with a recovery id.

The codes of a chain are tried until one gives a signature, without a bound. That every digest
has a signature by every secret is `Ecdsa.exists_signWithNonce?`; that the codes come to one is
the promise of the signer (`Ecdsa.Made`), whose result has no other form.
-/

namespace Bitcoin.Ecdsa

/-- The scalar congruent to a digest. -/
def digestScalar (digest : FixedBytes 32) : Scalar :=
  Scalar.ofNatMod digest.toNatBE

/-- The state of the chain that nonces are taken from: a key, and the last code. -/
structure NonceChain where
  key : FixedBytes 32
  code : FixedBytes 32
deriving DecidableEq

namespace NonceChain

/-- The chain after data behind a mark has entered it. -/
def feed (chain : NonceChain) (mark : UInt8) (data : Bytes) : NonceChain :=
  let key := Hmac.sha256 chain.key.toList (chain.code.toList ++ mark :: data)
  ⟨key, Hmac.sha256 key.toList chain.code.toList⟩

/-- The chain for a secret scalar and a digest, of which only the residue matters. -/
def start (secret : Scalar) (digest : FixedBytes 32) : NonceChain :=
  let data := secret.toBytes.toList ++ (digestScalar digest).toBytes.toList
  let initial : NonceChain := ⟨FixedBytes.zero 32, ⟨List.replicate 32 1, by simp⟩⟩
  (initial.feed 0 data).feed 1 data

/-- The chain with its next code. -/
def advance (chain : NonceChain) : NonceChain :=
  { chain with code := Hmac.sha256 chain.key.toList chain.code.toList }

end NonceChain

/-- The signature with a given nonce, unless a component of it is zero. -/
def signWithNonce? (secret nonce : Scalar) (digest : FixedBytes 32) : Option Signature :=
  match Point.mulGenerator nonce with
  | .infinity => none
  | .affine x y _ =>
    let r := Scalar.ofNatMod x.val
    let s := nonce.inverse * (digestScalar digest + r * secret)
    if hr : r ≠ 0 then
      if hs : s ≠ 0 then
        let overflow := decide (Curve.order ≤ x.val)
        let odd := y.isOdd != s.isHigh
        let id : Fin 4 := match overflow, odd with
          | false, false => 0
          | false, true => 1
          | true, false => 2
          | true, true => 3
        some ⟨⟨r, hr⟩, NonzeroScalar.low ⟨s, hs⟩, some id⟩
      else none
    else none

/-! ### Every digest has a signature -/

/-- A nonce gives a signature if its point has a first coordinate and neither component is
zero. -/
theorem exists_signature {secret nonce r : Scalar} {digest : FixedBytes 32}
    (hnonce : (Point.mulGenerator nonce).x?.map (fun x => Scalar.ofNatMod x.val) = some r)
    (hr : r ≠ 0) (hs : nonce.inverse * (digestScalar digest + r * secret) ≠ 0) :
  ∃ signature, signWithNonce? secret nonce digest = some signature
  := by
  rw [signWithNonce?]
  cases hpoint : Point.mulGenerator nonce with
  | infinity =>
    rw [hpoint] at hnonce
    cases hnonce
  | affine x y honCurve =>
    rw [hpoint] at hnonce
    cases hnonce
    simp only [dif_pos hr, dif_pos hs]
    exact ⟨_, rfl⟩

/-- The first component of a signature with the nonce one. -/
def firstOfOne : Scalar :=
  ⟨0x79be667ef9dcbbac55a06295ce870b07029bfcdb2dce28d959f2815b16f81798, by decide⟩

/-- The first component of a signature with the nonce two. -/
def firstOfTwo : Scalar :=
  ⟨0xc6047f9441ed7d6d3045406e95c07cd85c778e4b8cef3ca7abac09b95c709ee5, by decide⟩

/-- Every secret has a signature of every digest: if the nonce one gives none, then two does. -/
theorem exists_signWithNonce? (secret : NonzeroScalar) (digest : FixedBytes 32) :
  ∃ nonce signature, signWithNonce? secret.val nonce digest = some signature
  := by
  by_cases hone : Scalar.inverse 1 * (digestScalar digest + firstOfOne * secret.val) = 0
  · refine ⟨2, ?_⟩
    apply @exists_signature _ _ firstOfTwo _ (by decide +kernel) (by decide)
    intro htwo
    -- The two second components differ by a multiple of the secret that is not zero.
    have hinverse : Scalar.inverse 1 = 1 := by decide +kernel
    have hunit : (Scalar.inverse 2 * (firstOfTwo - firstOfOne)).inverse
        * (Scalar.inverse 2 * (firstOfTwo - firstOfOne)) = 1 := by decide +kernel
    apply secret.property
    grind
  · refine ⟨1, ?_⟩
    exact @exists_signature _ _ firstOfOne _ (by decide +kernel) (by decide) hone

/-! ### Signing -/

/-- What a signer promises: a signature that some nonce gives. -/
abbrev Made (secret : NonzeroScalar) (digest : FixedBytes 32) :=
  { signature : Signature // ∃ nonce, signWithNonce? secret.val nonce digest = some signature }

instance (secret : NonzeroScalar) (digest : FixedBytes 32) : Nonempty (Made secret digest) :=
  have ⟨nonce, signature, h⟩ := exists_signWithNonce? secret digest
  ⟨signature, nonce, h⟩

/-- The signature that the code of a chain gives, if it is a nonce and gives one. -/
def attempt? (secret : NonzeroScalar) (digest : FixedBytes 32) (chain : NonceChain) :
    Option (Made secret digest) :=
  match Scalar.ofNat? chain.code.toNatBE with
  | none => none
  | some nonce =>
    match h : signWithNonce? secret.val nonce digest with
    | none => none
    | some signature => some ⟨signature, nonce, h⟩

/-- The signature that the first code of a chain gives which gives one. -/
def NonceChain.search (secret : NonzeroScalar) (digest : FixedBytes 32) (chain : NonceChain) :
    Made secret digest :=
  match attempt? secret digest chain with
  | some made => made
  | none => (chain.feed 0 []).advance |>.search secret digest
partial_fixpoint

/-- The signature of a digest. -/
def sign (secret : NonzeroScalar) (digest : FixedBytes 32) : Signature :=
  ((NonceChain.start secret.val digest).advance.search secret digest).val

/-- Whether a signature of a digest was made with the secret scalar of a point. A signature whose
second component is high is refused. -/
def verify (key : Point) (digest : FixedBytes 32) (signature : Signature) : Bool :=
  if signature.s.val.isHigh then false
  else
    let w := signature.s.val.inverse
    let u₁ := digestScalar digest * w
    let u₂ := signature.r.val * w
    match (Point.mulGenerator u₁).add (key.mul u₂) with
    | .infinity => false
    | .affine x _ _ => Scalar.ofNatMod x.val = signature.r.val

/-- The point whose secret scalar has made a signature with a recovery id: the higher bit
tells that the first coordinate was reduced, the lower that the second one is odd. -/
def recover? (digest : FixedBytes 32) (signature : Signature) (id : Fin 4) : Option Point := do
  let x := signature.r.val.val + (if id.val < 2 then 0 else Curve.order)
  let nonce ← Point.lift? x (id.val % 2 = 1)
  let w := signature.r.val.inverse
  let u₁ := -(digestScalar digest * w)
  let u₂ := signature.s.val * w
  match (Point.mulGenerator u₁).add (nonce.mul u₂) with
  | .infinity => none
  | key => some key

end Bitcoin.Ecdsa
