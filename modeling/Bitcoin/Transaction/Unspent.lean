import Bitcoin.Transaction.Basic

/-!
# Unspent outputs

An `Unspent` is an output that may be spent, together with its place and the number of
blocks that confirm it.
-/

namespace Bitcoin

/-- An output that may be spent. -/
structure Unspent where
  outpoint : Outpoint
  /-- The amount in the smallest unit. -/
  value : UInt64
  /-- The script that locks it. -/
  script : Script
  /-- The number of blocks since. -/
  confirmations : UInt32
deriving DecidableEq

/-- Whether so many blocks have confirmed the output that it counts as settled. -/
def Unspent.confirmed (unspent : Unspent) : Bool :=
  6 ≤ unspent.confirmations

end Bitcoin
