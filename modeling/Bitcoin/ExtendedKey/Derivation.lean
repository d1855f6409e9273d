import Bitcoin.ExtendedKey.Basic

/-!
# Deriving extended keys

A master key comes from a seed or from a mnemonic sentence. A child comes from its parent
and an index by a code of 64 bytes: the first half is added to the parent's key, the second
half is the child's chain code. For an index that is not hardened the code depends on the
public key alone, so that `ExtendedPublicKey.child` can derive the public side of what
`ExtendedPrivateKey.child` derives.
-/

namespace Bitcoin

/-- The two halves of a code: a scalar to add to a key, and a chain code. -/
def splitCode (code : FixedBytes 64) : Except Error (Scalar × FixedBytes 32) :=
  match Scalar.ofNat? (code.take 32 (by decide)).toNatBE with
  | some k => .ok (k, code.drop 32)
  | none => .error (.domain .derivedRange)

/-- The place of a child of the key with a given place and public key. -/
def Lineage.child (parent : ExtendedPublicKey) (chainCode : FixedBytes 32) (index : UInt32) :
    Except Error Lineage :=
  if parent.lineage.depth = 255 then .error (.domain .maximumDepth)
  else Lineage.ofMarks chainCode (parent.lineage.depth + 1) parent.fingerprint index
    parent.lineage.network

namespace ExtendedPrivateKey

/-- The master key that a seed determines. -/
def ofSeed (seed : Bytes) (network : Network) : Except Error ExtendedPrivateKey := do
  let (k, chainCode) ← splitCode (Hmac.sha512 (Text.utf8 "Bitcoin seed".toList) seed)
  let key ← PrivateKey.ofScalar k network
  .ok ⟨key, Lineage.ofMaster chainCode network⟩

/-- The seed that a mnemonic sentence and a passphrase stretch to. -/
def seedOfMnemonic (sentence passphrase : String) : FixedBytes 64 :=
  Pbkdf2.sha512 (Text.utf8 sentence.toList) (Text.utf8 ("mnemonic" ++ passphrase).toList) 2048

/-- The master key that a mnemonic sentence and a passphrase determine. -/
def ofMnemonic (sentence passphrase : String) (network : Network) :
    Except Error ExtendedPrivateKey :=
  ofSeed (seedOfMnemonic sentence passphrase).toList network

/-- The child with an index. -/
def child (parent : ExtendedPrivateKey) (index : UInt32) : Except Error ExtendedPrivateKey := do
  let neutered := parent.publicKey
  let material :=
    if isHardened index then 0 :: parent.key.toBytes.toList else neutered.key.toBytes true
  let code := Hmac.sha512 parent.lineage.chainCode.toList
    (material ++ Bytes.ofNatBE 4 index.toNat)
  let (k, chainCode) ← splitCode code
  let sum := k + parent.key.secret.val
  if h : sum ≠ 0 then
    let lineage ← Lineage.child neutered chainCode index
    .ok ⟨⟨⟨sum, h⟩, parent.lineage.network⟩, lineage⟩
  else .error (.domain (.childZero index))

end ExtendedPrivateKey

namespace ExtendedPublicKey

/-- The child with an index that is not hardened. -/
def child (parent : ExtendedPublicKey) (index : UInt32) : Except Error ExtendedPublicKey := do
  if isHardened index then .error (.domain .hardenedFromPublic)
  else
    let code := Hmac.sha512 parent.lineage.chainCode.toList
      (parent.key.toBytes true ++ Bytes.ofNatBE 4 index.toNat)
    let (k, chainCode) ← splitCode code
    let point := (Point.mulGenerator k).add parent.key.point
    if point.isInfinity then .error (.domain (.childInfinity index))
    else
      let lineage ← Lineage.child parent chainCode index
      .ok ⟨⟨point, parent.lineage.network⟩, lineage⟩

end ExtendedPublicKey

/-- The public side of a child of a private key, hardened or not. -/
def ExtendedPrivateKey.publicChild (parent : ExtendedPrivateKey) (index : UInt32) :
    Except Error ExtendedPublicKey := do
  let key ← parent.child index
  .ok key.publicKey

/-- The child with an index, of the same sort as the parent. -/
def ExtendedKey.child (parent : ExtendedKey) (index : UInt32) : Except Error ExtendedKey :=
  match parent with
  | .privateKey key => (key.child index).map .privateKey
  | .publicKey key => (key.child index).map .publicKey

/-- The keys along a list of indices, from the root to the last. -/
def ExtendedKey.descend (root : ExtendedKey) : List UInt32 → Except Error (List ExtendedKey)
  | [] => .ok [root]
  | index :: indices => do
    let key ← root.child index
    let keys ← key.descend indices
    .ok (root :: keys)

end Bitcoin
