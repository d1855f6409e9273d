import Bitcoin.Error

/-!
# Networks and addresses

The two networks differ in the bytes by which serialized keys and addresses start.
`AddressKind.version` and `AddressKind.ofVersion?` give the byte of an address and go back,
and `Address` is an address taken apart.
-/

namespace Bitcoin

/-- One of the two networks. -/
inductive Network where
  | mainnet
  | testnet
deriving DecidableEq, Inhabited

namespace Network

/-- The name of a network in data. -/
def name : Network → String
  | .mainnet => "mainnet"
  | .testnet => "testnet"

/-- The name of a network in displayed values. -/
def displayName : Network → String
  | .mainnet => "Mainnet"
  | .testnet => "Testnet"

/-- The version byte of addresses that pay to a key hash. -/
def keyHashVersion : Network → UInt8
  | .mainnet => 0x00
  | .testnet => 0x6f

/-- The version byte of addresses that pay to a script hash. -/
def scriptHashVersion : Network → UInt8
  | .mainnet => 0x05
  | .testnet => 0xc4

/-- The version byte of private keys in text. -/
def walletVersion : Network → UInt8
  | .mainnet => 0x80
  | .testnet => 0xef

/-- The version word of extended private keys. -/
def extendedPrivateVersion : Network → UInt32
  | .mainnet => 0x0488ade4
  | .testnet => 0x04358394

/-- The version word of extended public keys. -/
def extendedPublicVersion : Network → UInt32
  | .mainnet => 0x0488b21e
  | .testnet => 0x043587cf

/-- The network whose private keys start with a version byte. -/
def ofWalletVersion? (version : UInt8) : Option Network :=
  [mainnet, testnet].find? (·.walletVersion = version)

end Network

/-- What an address names. -/
inductive AddressKind where
  /-- The hash of a public key. -/
  | keyHash
  /-- The hash of a script. -/
  | scriptHash
deriving DecidableEq

namespace AddressKind

/-- The version byte of an address. -/
def version (network : Network) : AddressKind → UInt8
  | .keyHash => network.keyHashVersion
  | .scriptHash => network.scriptHashVersion

/-- The kind and the network of the addresses with a version byte. -/
def ofVersion? (version : UInt8) : Option (AddressKind × Network) :=
  [(keyHash, Network.mainnet), (keyHash, .testnet), (scriptHash, .mainnet),
   (scriptHash, .testnet)].find? fun (kind, network) => kind.version network = version

end AddressKind

/-- An address taken apart. -/
structure Address where
  /-- What it names. -/
  kind : AddressKind
  /-- Where it is valid. -/
  network : Network
  /-- The hash it names. -/
  hash : FixedBytes 20
deriving DecidableEq

namespace Address

/-- The text of a hash of 20 bytes behind a version byte. -/
def encodeHash (version : UInt8) (hash : FixedBytes 20) : String :=
  Base58.encodeChecked (version :: hash.toList)

/-- The version byte and the hash in a text. -/
def decodeHash (text : String) : Except Error (UInt8 × FixedBytes 20) := do
  let payload ← decodeBase58 text
  match payload with
  | version :: rest =>
    match FixedBytes.ofList? rest with
    | some hash => .ok (version, hash)
    | none => .error (.decoding (.addressLength payload.length))
  | [] => .error (.decoding (.addressLength payload.length))

/-- The text of an address. -/
def encode (address : Address) : String :=
  encodeHash (address.kind.version address.network) address.hash

/-- The address in a text. -/
def decode (text : String) : Except Error Address := do
  let (version, hash) ← decodeHash text
  match AddressKind.ofVersion? version with
  | some (kind, network) => .ok ⟨kind, network, hash⟩
  | none => .error (.decoding (.addressVersion version))

end Address

end Bitcoin
