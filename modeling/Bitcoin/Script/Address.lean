import Bitcoin.Script.Standard

/-!
# Addresses of scripts

A standard script of an output names the hash that it pays to, and one of an input reveals
what the hash belongs to. `Script.namedHash?` is this hash, and `Script.addresses` are all
the addresses that a script has to do with.
-/

namespace Bitcoin.Script

/-- The address of the key hash of an encoded key. -/
def keyAddress (network : Network) (key : Bytes) : String :=
  Address.encode ⟨.keyHash, network, Digest.hash160 key⟩

/-- The hash that a standard script names or reveals. -/
def namedHash? (script : Script) : Option (FixedBytes 20) :=
  match script.keyHash? with
  | some hash => some hash
  | none =>
    match script.scriptHash? with
    | some hash => some hash
    | none =>
      match script.multisigSignatures? with
      | some found => some found.redeem.hash
      | none => script.signatureAndKey?.map fun found => Digest.hash160 found.key

/-- The key in a script that pays to a key itself. -/
def paidKey? (script : Script) : Option Bytes := do
  let tokens ← script.tokens.toOption
  if script.fits [.data, .op .checkSig] then (← tokens.head?).data? else none

/-- The addresses that a standard script pays to or is signed by. A script that supplies
several signatures has those of all the keys, and last that of the script revealed. -/
def addresses (script : Script) (network : Network) : List String :=
  match script.keyHash? with
  | some hash => [Address.encode ⟨.keyHash, network, hash⟩]
  | none =>
    match script.scriptHash? with
    | some hash => [Address.encode ⟨.scriptHash, network, hash⟩]
    | none =>
      match script.multisigSignatures? with
      | some found =>
        let keys := (found.redeem.multisigRedeem?.map (·.keys)).getD []
        keys.map (keyAddress network) ++ [found.redeem.address network]
      | none =>
        match script.signatureAndKey? with
        | some found => [keyAddress network found.key]
        | none => (script.paidKey?.map (keyAddress network)).toList

end Bitcoin.Script
