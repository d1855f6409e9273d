import Bitcoin.Transaction.Basic

/-!
# Transactions in text

`Transaction.display` shows a transaction to people: a heading, and a line for each input
and each output.
-/

namespace Bitcoin

/-- The line of an input. -/
def Input.display (input : Input) : String :=
  "  in  " ++ input.outpoint.transaction.toHex ++ ":" ++ toString input.outpoint.index.toNat
    ++ " script " ++ input.script.display ++ " sequence 0x"
    ++ Numeral.hex 8 input.sequence.toNat ++ "\n"

/-- The line of an output. -/
def Output.display (output : Output) : String :=
  "  out " ++ toString output.value.toNat ++ " script " ++ output.script.display ++ "\n"

/-- The lines of a transaction. -/
def Transaction.display (tx : Transaction) : String :=
  "Transaction: version " ++ toString tx.version.toNat ++ ", lock time "
    ++ toString tx.lockTime.toNat ++ "\n" ++ String.join (tx.inputs.map Input.display)
    ++ String.join (tx.outputs.map Output.display)

end Bitcoin
