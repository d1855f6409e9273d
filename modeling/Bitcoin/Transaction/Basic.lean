import Bitcoin.Hash256
import Bitcoin.Script.Address
import Bitcoin.Wire.CompactSize

/-!
# Transactions

A `Transaction` spends outputs of other transactions by its inputs and creates outputs of
its own. `Transaction.encode` is its form on the wire, which `Transaction.decode` reads
back along with the bytes behind it; its name is the double SHA-256 of that form.
-/

namespace Bitcoin

/-- The place of an output: the transaction that has it, and its index there. -/
structure Outpoint where
  transaction : Hash256
  index : UInt32
deriving DecidableEq

/-- The place that a coinbase input names instead of an output. -/
def Outpoint.null : Outpoint :=
  ⟨FixedBytes.zero 32, 0xffffffff⟩

/-- An output to be spent, and what unlocks it. -/
structure Input where
  /-- The output. -/
  outpoint : Outpoint
  /-- The script that unlocks it. -/
  script : Script
  /-- The sequence number; the greatest one makes the input final. -/
  sequence : UInt32
deriving DecidableEq

/-- An amount, and who may spend it. -/
structure Output where
  /-- The amount in the smallest unit. -/
  value : UInt64
  /-- The script that locks it. -/
  script : Script
deriving DecidableEq

/-- A transaction. -/
structure Transaction where
  version : UInt32
  inputs : List Input
  outputs : List Output
  /-- When it may enter a block: a height, or a time. -/
  lockTime : UInt32
deriving DecidableEq

namespace Input

/-- The form of an input on the wire. -/
def encode (input : Input) : Bytes :=
  input.outpoint.transaction.toList ++ Bytes.ofNatLE 4 input.outpoint.index.toNat
    ++ CompactSize.encodeBytes input.script.bytes ++ Bytes.ofNatLE 4 input.sequence.toNat

/-- Takes an input. -/
def read : Reader Input := do
  let transaction ← Reader.takeFixed 32
  let index ← Reader.u32
  let script ← CompactSize.readBytes
  let sequence ← Reader.u32
  return ⟨⟨transaction, index⟩, .encoded script, sequence⟩

/-- The input at the start of a byte string, and the bytes behind it. -/
def decode (bytes : Bytes) : Except Error (Input × Bytes) :=
  read.runOn bytes

/-- Whether an input spends no output but creates new coins. -/
def isCoinbase (input : Input) : Bool :=
  input.outpoint = Outpoint.null

/-- The addresses an input is signed by. -/
def addresses (input : Input) (network : Network) : List String :=
  if input.isCoinbase then [] else input.script.addresses network

end Input

namespace Output

/-- The form of an output on the wire. -/
def encode (output : Output) : Bytes :=
  Bytes.ofNatLE 8 output.value.toNat ++ CompactSize.encodeBytes output.script.bytes

/-- Takes an output. -/
def read : Reader Output := do
  let value ← Reader.u64
  let script ← CompactSize.readBytes
  return ⟨value, .encoded script⟩

/-- The output at the start of a byte string, and the bytes behind it. -/
def decode (bytes : Bytes) : Except Error (Output × Bytes) :=
  read.runOn bytes

/-- The addresses an output pays to. -/
def addresses (output : Output) (network : Network) : List String :=
  output.script.addresses network

end Output

namespace Transaction

/-- The transaction without inputs and outputs. -/
def empty : Transaction :=
  ⟨1, [], [], 0⟩

/-- The form of a transaction on the wire. -/
def encode (tx : Transaction) : Bytes :=
  Bytes.ofNatLE 4 tx.version.toNat
    ++ CompactSize.encode tx.inputs.length ++ tx.inputs.flatMap Input.encode
    ++ CompactSize.encode tx.outputs.length ++ tx.outputs.flatMap Output.encode
    ++ Bytes.ofNatLE 4 tx.lockTime.toNat

/-- Takes a transaction. -/
def read : Reader Transaction := do
  let version ← Reader.u32
  let inputCount ← CompactSize.read
  let inputs ← Reader.many inputCount Input.read
  let outputCount ← CompactSize.read
  let outputs ← Reader.many outputCount Output.read
  let lockTime ← Reader.u32
  return ⟨version, inputs, outputs, lockTime⟩

/-- The transaction at the start of a byte string, and the bytes behind it. -/
def decode (bytes : Bytes) : Except Error (Transaction × Bytes) :=
  read.runOn bytes

/-- The transaction whose form on the wire is given in hexadecimal. -/
def ofHex (text : String) : Except Error Transaction := do
  let bytes ← decodeHex text
  let (tx, rest) ← decode bytes
  if rest.isEmpty then .ok tx else .error (.decoding (.trailingBytes rest.length))

/-- The form on the wire in hexadecimal. -/
def toHex (tx : Transaction) : String :=
  Hex.encode tx.encode

/-- The name of a transaction. -/
def hash (tx : Transaction) : Hash256 :=
  Hash256.ofData tx.encode

/-- The addresses of each input, and those of each output. -/
def addresses (tx : Transaction) (network : Network) :
    List (List String) × List (List String) :=
  (tx.inputs.map (·.addresses network), tx.outputs.map (·.addresses network))

/-- Refuses an index that no input has. -/
def checkInput (tx : Transaction) (index : Nat) : Except Error Unit :=
  if index < tx.inputs.length then .ok ()
  else .error (.domain (.inputOutOfRange index tx.inputs.length))

/-- The transaction with another script in an input. -/
def withScript (tx : Transaction) (index : Nat) (script : Script) : Transaction :=
  { tx with inputs := tx.inputs.modify index fun input => { input with script } }

/-- The index of the first standard output that pays to a hash. -/
def outputPaying? (tx : Transaction) (hash : FixedBytes 20) : Option Nat :=
  tx.outputs.findIdx? fun output =>
    output.script.keyHash? = some hash || output.script.scriptHash? = some hash

/-- The index of the first standard output that pays to the hash in an address. -/
def outputPayingAddress (tx : Transaction) (address : String) : Except Error (Option Nat) := do
  let (_, hash) ← Address.decodeHash address
  .ok (tx.outputPaying? hash)

end Transaction

end Bitcoin
