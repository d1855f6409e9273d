import Bitcoin.Base58
import Bitcoin.Base64
import Bitcoin.Curve.Point
import Bitcoin.Decimal
import Bitcoin.Digest
import Bitcoin.Error
import Bitcoin.ExtendedKey.Path
import Bitcoin.Hash256
import Bitcoin.Hex
import Bitcoin.Json.Codec
import Bitcoin.Key.Message
import Bitcoin.Machine.Run
import Bitcoin.Network
import Bitcoin.Script.Address
import Bitcoin.Script.Edit
import Bitcoin.Script.Number
import Bitcoin.Transaction.Coinbase
import Bitcoin.Transaction.Digest
import Bitcoin.Transaction.Display
import Bitcoin.Transaction.Signing
import Bitcoin.Transaction.Verification
import Bitcoin.Wire.CompactSize
import Bitcoin.Work.Difficulty
import Bitcoin.Proofs.Curve.Module
import Bitcoin.Proofs.ExtendedKey.Chain
import Bitcoin.Proofs.ExtendedKey.Encoding
import Bitcoin.Proofs.ExtendedKey.Path
import Bitcoin.Proofs.Json.Codec
import Bitcoin.Proofs.Machine.Ceiling
import Bitcoin.Proofs.Machine.Coherence
import Bitcoin.Proofs.Machine.Context
import Bitcoin.Proofs.Machine.Linear
import Bitcoin.Proofs.Machine.LockTime
import Bitcoin.Proofs.Machine.Moves
import Bitcoin.Proofs.Machine.Output
import Bitcoin.Proofs.Machine.Overflow
import Bitcoin.Proofs.Machine.Partial
import Bitcoin.Proofs.Machine.Sequence
import Bitcoin.Proofs.Script.Change
import Bitcoin.Proofs.Script.Recognition
import Bitcoin.Proofs.Script.Removal
import Bitcoin.Proofs.Script.ShortestNumber
import Bitcoin.Proofs.Script.Spelling
import Bitcoin.Proofs.Signature.Access
import Bitcoin.Proofs.Signature.Negation
import Bitcoin.Proofs.SignedMessage
import Bitcoin.Proofs.Transaction.Assignment
import Bitcoin.Proofs.Transaction.Coinbase
import Bitcoin.Proofs.Transaction.Commitment
import Bitcoin.Proofs.Transaction.Decoding
import Bitcoin.Proofs.Transaction.Independence
import Bitcoin.Proofs.Transaction.KeyHash
import Bitcoin.Proofs.Transaction.Partial
import Bitcoin.Proofs.Transaction.Payee
import Bitcoin.Proofs.Transaction.Reads
import Bitcoin.Proofs.Transaction.Shortest
import Bitcoin.Proofs.Transaction.Verdict
import Bitcoin.Proofs.Wire.Request
import Bitcoin.Proofs.Work.Numeral
import Bitcoin.Proofs.Work.Target
import Bitcoin.Proofs.Work.Truncation
