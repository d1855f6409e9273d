import Bitcoin.Key.Private
import Bitcoin.Wire.Reader

/-!
# Extended keys

An extended key is a key together with its place in a tree of keys, its `Lineage`: a chain
code, which its children are derived with, the depth, a fingerprint of the parent, the index
among the parent's children, and the network of the tree. `ExtendedKey.toBytes` and
`ExtendedKey.ofBytes` are the serialized form of 78 bytes.
-/

namespace Bitcoin

/-- Whether a child with an index can only be derived from the private key. -/
def isHardened (index : UInt32) : Bool :=
  0x80000000 ≤ index

/-- The place of a key in its tree. -/
structure Lineage where
  /-- What the children are derived with. -/
  chainCode : FixedBytes 32
  /-- The distance from the master key. -/
  depth : UInt8
  /-- The first bytes of the parent's hash. -/
  parent : FixedBytes 4
  /-- The number of the key among its parent's children. -/
  index : UInt32
  /-- The network of the tree. -/
  network : Network
  /-- The master key has no parent. -/
  master : depth = 0 → parent = FixedBytes.zero 4 ∧ index = 0
deriving DecidableEq

/-- The place with given marks, if it can exist. -/
def Lineage.ofMarks (chainCode : FixedBytes 32) (depth : UInt8) (parent : FixedBytes 4)
    (index : UInt32) (network : Network) : Except Error Lineage :=
  if h : depth = 0 → parent = FixedBytes.zero 4 ∧ index = 0 then
    .ok ⟨chainCode, depth, parent, index, network, h⟩
  else .error (.domain .masterMetadata)

/-- The place of a master key. -/
def Lineage.ofMaster (chainCode : FixedBytes 32) (network : Network) : Lineage :=
  ⟨chainCode, 0, FixedBytes.zero 4, 0, network, fun _ => ⟨rfl, rfl⟩⟩

/-- A private key in its tree. -/
structure ExtendedPrivateKey where
  key : PrivateKey
  lineage : Lineage
deriving DecidableEq

/-- A public key in its tree. -/
structure ExtendedPublicKey where
  key : PublicKey
  lineage : Lineage
deriving DecidableEq

/-- A key of either sort in its tree. -/
inductive ExtendedKey where
  | privateKey (key : ExtendedPrivateKey)
  | publicKey (key : ExtendedPublicKey)
deriving DecidableEq

/-- The matching public key, at the same place. -/
def ExtendedPrivateKey.publicKey (key : ExtendedPrivateKey) : ExtendedPublicKey :=
  ⟨key.key.publicKey, key.lineage⟩

namespace ExtendedPublicKey

/-- The hash of the compressed key. -/
def identifier (key : ExtendedPublicKey) : FixedBytes 20 :=
  key.key.hash true

/-- The first four bytes of the identifier. -/
def fingerprint (key : ExtendedPublicKey) : FixedBytes 4 :=
  key.identifier.take 4 (by decide)

/-- The address of the compressed key on the network of the tree. -/
def address (key : ExtendedPublicKey) : String :=
  key.key.addressOn true key.lineage.network

end ExtendedPublicKey

namespace ExtendedKey

/-- The place in the tree. -/
def lineage : ExtendedKey → Lineage
  | .privateKey key => key.lineage
  | .publicKey key => key.lineage

/-- The network of the tree. -/
def network (key : ExtendedKey) : Network :=
  key.lineage.network

/-- The public key at the same place, which may be the key itself. -/
def neutered : ExtendedKey → ExtendedPublicKey
  | .privateKey key => key.publicKey
  | .publicKey key => key

/-- Whether the key has no parent. -/
def isMaster (key : ExtendedKey) : Bool :=
  key.lineage.depth = 0

/-- The version word of the serialized form. -/
def version : ExtendedKey → UInt32
  | .privateKey key => key.lineage.network.extendedPrivateVersion
  | .publicKey key => key.lineage.network.extendedPublicVersion

/-- The 33 bytes of the key itself in the serialized form. -/
def material : ExtendedKey → Bytes
  | .privateKey key => 0 :: key.key.toBytes.toList
  | .publicKey key => key.key.toBytes true

/-- The serialized form. -/
def toBytes (key : ExtendedKey) : Bytes :=
  Bytes.ofNatBE 4 key.version.toNat ++ [key.lineage.depth] ++ key.lineage.parent.toList
    ++ Bytes.ofNatBE 4 key.lineage.index.toNat ++ key.lineage.chainCode.toList ++ key.material

/-- The text of the serialized form. -/
def toText (key : ExtendedKey) : String :=
  Base58.encodeChecked key.toBytes

/-- The sort and the network that a version word stands for. -/
def ofVersion? (version : UInt32) : Option (Bool × Network) :=
  [(true, Network.mainnet), (true, .testnet), (false, .mainnet), (false, .testnet)].find?
    fun (isPrivate, network) =>
      version = if isPrivate then network.extendedPrivateVersion
        else network.extendedPublicVersion

/-- The private key that 33 bytes denote. -/
def ofPrivateMaterial (material : Bytes) (network : Network) (lineage : Lineage) :
    Except Error ExtendedKey := do
  if material.headD 1 ≠ 0 then .error (.decoding .privateMaterial)
  else
    let key ← PrivateKey.ofBytes material.tail network
    .ok (.privateKey ⟨key, lineage⟩)

/-- The public key that 33 bytes denote. -/
def ofPublicMaterial (material : Bytes) (network : Network) (lineage : Lineage) :
    Except Error ExtendedKey := do
  if material.headD 0 ≠ 0x02 ∧ material.headD 0 ≠ 0x03 then
    .error (.decoding .publicMaterial)
  else
    let key ← PublicKey.ofBytes material network
    .ok (.publicKey ⟨key, lineage⟩)

/-- The key whose serialized form has given parts, if there is one. -/
def ofParts (version : UInt32) (depth : UInt8) (parent : FixedBytes 4) (index : UInt32)
    (chainCode : FixedBytes 32) (material : Bytes) : Except Error ExtendedKey :=
  match ofVersion? version with
  | none => .error (.decoding (.extendedKeyVersion version))
  | some (isPrivate, network) => do
    let lineage ← Lineage.ofMarks chainCode depth parent index network
    if isPrivate then ofPrivateMaterial material network lineage
    else ofPublicMaterial material network lineage

/-- Takes the parts of a serialized key, and judges them once all are there. -/
def read : Reader (Except Error ExtendedKey) := do
  let version ← Reader.natBE 4
  let depth ← Reader.u8
  let parent ← Reader.takeFixed 4
  let index ← Reader.natBE 4
  let chainCode ← Reader.takeFixed 32
  let material ← Reader.take 33
  return ofParts (UInt32.ofNat version) depth parent (UInt32.ofNat index) chainCode material

/-- The key whose serialized form is given. -/
def ofBytes (bytes : Bytes) : Except Error ExtendedKey := do
  if bytes.length ≠ 78 then .error (.decoding (.extendedKeyLength bytes.length))
  else
    let (key, _) ← read.runOn bytes
    key

/-- The key in the text of a serialized form. -/
def ofText (text : String) : Except Error ExtendedKey := do
  let bytes ← decodeBase58 text
  ofBytes bytes

end ExtendedKey

/-- An extended private key in displayed form, which does not show the scalar. -/
def ExtendedPrivateKey.display (key : ExtendedPrivateKey) : String :=
  "HDPrivateKey \x7b public_key: " ++ key.key.publicKey.display ++ ", depth: "
    ++ toString key.lineage.depth.toNat ++ ", index: " ++ toString key.lineage.index.toNat
    ++ ", .. \x7d"

end Bitcoin
