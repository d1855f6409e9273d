import Bitcoin.Network
import Bitcoin.Proofs.Base58

/-!
# Addresses are read back

An address is its kind, its network and its hash: its text is read back (`Address.decode_encode`),
and so different addresses have different texts (`Address.encode_injective`). No other text is read
as the address (`Address.decode_eq_ok_iff`).
-/

namespace Bitcoin

/-- The Base58Check form of a payload is the only text that it is read from. -/
theorem decodeBase58_eq_ok_iff {text : String} {payload : Bytes} :
  decodeBase58 text = .ok payload ↔ Base58.encodeChecked payload = text
  := by
  constructor
  · intro h
    rw [decodeBase58] at h
    cases hread : Base58.decodeChecked text with
    | error e =>
      rw [hread] at h
      cases h
    | ok bytes =>
      rw [hread] at h
      cases h
      apply Base58.encodeChecked_of_decodeChecked hread
  · rintro rfl
    rw [decodeBase58, Base58.decodeChecked_encodeChecked]
    rfl

/-- The version byte tells the kind and the network. -/
theorem AddressKind.ofVersion?_version (kind : AddressKind) (network : Network) :
  ofVersion? (kind.version network) = some (kind, network)
  := by
  cases kind <;> cases network <;> rfl

/-- Only the four versions of addresses are recognised. -/
theorem AddressKind.version_of_ofVersion? {version : UInt8} {kind : AddressKind} {network : Network}
    (h : ofVersion? version = some (kind, network)) :
  kind.version network = version
  := by
  simpa using List.find?_some h

namespace Address

/-- An address is read back from its text. -/
theorem decode_encode (address : Address) :
  decode address.encode = .ok address
  := by
  have hpayload : decodeBase58 address.encode
      = .ok (address.kind.version address.network :: address.hash.toList) :=
    decodeBase58_eq_ok_iff.mpr rfl
  have hhash : decodeHash address.encode
      = .ok (address.kind.version address.network, address.hash) := by
    rw [decodeHash, bind_of_eq_ok hpayload]
    dsimp only
    rw [FixedBytes.ofList?_toList]
  rw [decode, bind_of_eq_ok hhash]
  dsimp only
  rw [AddressKind.ofVersion?_version]

/-- Different addresses have different texts. -/
theorem encode_injective :
  Function.Injective encode
  := by
  intro a b h
  have hdecode := decode_encode a
  rw [h, decode_encode] at hdecode
  cases hdecode
  rfl

/-- The address in a text has the version and the hash in it. -/
theorem decodeHash_of_decode {text : String} {address : Address} (h : decode text = .ok address) :
  decodeHash text = .ok (address.kind.version address.network, address.hash)
  := by
  obtain ⟨⟨version, hash⟩, hread, h⟩ := bind_eq_ok_iff.mp h
  dsimp only at h
  split at h
  · next kind network hversion =>
    cases h
    rw [hread, AddressKind.version_of_ofVersion? hversion]
  · cases h

/-- The text of the hash in a text, behind the version in it, is the text. -/
theorem encodeHash_of_decodeHash {text : String} {version : UInt8} {hash : FixedBytes 20}
    (h : decodeHash text = .ok (version, hash)) :
  encodeHash version hash = text
  := by
  obtain ⟨payload, hpayload, h⟩ := bind_eq_ok_iff.mp h
  split at h
  · next first rest =>
    split at h
    · next found hfound =>
      cases h
      obtain rfl := FixedBytes.ofList?_eq_some_iff.mp hfound
      apply decodeBase58_eq_ok_iff.mp hpayload
    · cases h
  · cases h

/-- The text of an address is the only one that is read as it. -/
theorem decode_eq_ok_iff {text : String} {address : Address} :
  decode text = .ok address ↔ address.encode = text
  := by
  constructor
  · exact fun h => encodeHash_of_decodeHash (decodeHash_of_decode h)
  · rintro rfl
    apply decode_encode

end Address

end Bitcoin
