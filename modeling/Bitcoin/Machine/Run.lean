import Bitcoin.Machine.Arithmetic
import Bitcoin.Machine.Signature

/-!
# Executing scripts

`Step.execute` executes an opcode and `Step.runFrames` programs. Before each element the size
of the stacks is checked. A conditional takes its condition from the stack, and the part
that it selects is executed before what follows the conditional. After the machine has
stopped, nothing is executed.
-/

namespace Bitcoin

/-- Executes an opcode that is not part of the structure of a script. -/
def Step.execute (op : Opcode) : Step Unit :=
  match op with
  | .zero => push (.bytes [])
  | .negativeOne => push (.number (-1 : Int))
  | .one | .two | .three | .four | .five | .six | .seven | .eight | .nine | .ten | .eleven
  | .twelve | .thirteen | .fourteen | .fifteen | .sixteen =>
    push (.number (op.smallInt?.getD 0 : Int))
  | .nop | .nop1 | .nop3 | .nop4 | .nop5 | .nop6 | .nop7 | .nop8 | .nop9 | .nop10
  | .codeSeparator => return ()
  | .verify => verify
  | .returnFail => stop
  | .toAltStack => toAltStack
  | .fromAltStack => fromAltStack
  | .drop2 => rearrange 2 StackOp.drop2
  | .dup2 => rearrange 2 StackOp.dup2
  | .dup3 => rearrange 3 StackOp.dup3
  | .over2 => rearrange 4 StackOp.over2
  | .rot2 => rearrange 6 StackOp.rot2
  | .swap2 => rearrange 4 StackOp.swap2
  | .ifDup => rearrange 1 StackOp.ifDup
  | .depth => depth
  | .drop => drop
  | .dup => rearrange 1 StackOp.dup
  | .nip => rearrange 2 StackOp.nip
  | .over => rearrange 2 StackOp.dupSecond
  | .pick => pick
  | .roll => roll
  | .rot => rearrange 3 StackOp.rot
  | .swap => rearrange 2 StackOp.swap
  | .tuck => rearrange 2 StackOp.tuck
  | .size => rearrange 1 StackOp.size
  | .equal => equal
  | .equalVerify => do equal; verify
  | .add1 => unary fun a => .number (a + 1 : Int)
  | .sub1 => unary fun a => .number (a - 1 : Int)
  | .negate => unary fun a => .number (-a : Int)
  | .abs => unary fun a => .number (a.natAbs : Int)
  | .logicalNot => unary fun a => .truth (a == 0)
  | .notZero => unary fun a => .truth (a != 0)
  | .add => binary fun a b => .number (a + b : Int)
  | .sub => binary fun a b => .number (a - b : Int)
  | .boolAnd => binary fun a b => .truth (a != 0 && b != 0)
  | .boolOr => binary fun a b => .truth (a != 0 || b != 0)
  | .numEqual => binary fun a b => .truth (a == b)
  | .numEqualVerify => do binary fun a b => .truth (a == b); verify
  | .numNotEqual => binary fun a b => .truth (a != b)
  | .lessThan => binary fun a b => .truth (decide (a < b))
  | .greaterThan => binary fun a b => .truth (decide (b < a))
  | .lessOrEqual => binary fun a b => .truth (decide (a ≤ b))
  | .greaterOrEqual => binary fun a b => .truth (decide (b ≤ a))
  | .min => binary fun a b => .number (min a b : Int)
  | .max => binary fun a b => .number (max a b : Int)
  | .within => within
  | .ripemd160 => digest Ripemd160.digest
  | .sha1 => digest Sha1.digest
  | .sha256 => digest Sha256.digest
  | .hash160 => digest Digest.hash160
  | .hash256 => digest Digest.hash256
  | .checkSig => checkSig
  | .checkSigVerify => do checkSig; verify
  | .checkMultisig => checkMultisig
  | .checkMultisigVerify => do checkMultisig; verify
  | .checkLockTimeVerify => checkLockTime
  | .ifTrue | .ifFalse | .otherwise | .endIf | .pushData1 | .pushData2 | .pushData4 =>
    fail (.structuralOpcode op)
  | .cat | .substr | .left | .right | .invert | .bitAnd | .bitOr | .bitXor | .mul2 | .div2
  | .mul | .div | .mod | .shiftLeft | .shiftRight => stop
  | .reserved | .ver | .verIf | .verNotIf | .reserved1 | .reserved2 => stop

namespace Step

/-- Executes what follows, unless the machine has stopped. -/
def unlessStopped (next : Step Unit) : Step Unit := fun m =>
  if m.stopped then .ok () m else next m

/-- Checks the size of the stacks and executes an element. -/
def element (body : Step Unit) : Step Unit := do
  checkSize
  body

/-- Refuses to enter a conditional at the given depth if it is beyond the limit. -/
def enter (depth : Nat) : Step Unit := do
  let m ← get
  if depth > m.limits.branchDepth then fail .nestedTooDeep

/-- Executes what is left of the programs that have been begun, the innermost first. Each but
the last one is a part of a conditional in the next one. -/
def runFrames : List Program → Step Unit
  | [] => return ()
  | .done :: frames => runFrames frames
  | .push p rest :: frames => do
    element (push (.bytes p.data))
    unlessStopped (runFrames (rest :: frames))
  | .op o rest :: frames => do
    element (execute o)
    unlessStopped (runFrames (rest :: frames))
  | .branch c body rest :: frames => do
    checkSize
    let condition ← popBool
    if c.takes condition then
      enter (rest :: frames).length
      unlessStopped (runFrames (body :: rest :: frames))
    else unlessStopped (runFrames (rest :: frames))
  | .branchElse c body alternative rest :: frames => do
    checkSize
    let condition ← popBool
    enter (rest :: frames).length
    let part := if c.takes condition then body else alternative
    unlessStopped (runFrames (part :: rest :: frames))
termination_by frames => (frames.flatMap Program.tokens).length + frames.length
decreasing_by
  all_goals
    simp only [List.flatMap_cons, Program.tokens, List.length_cons, List.length_append]
    try split
    all_goals omega

/-- Executes a script, unless the machine has stopped. -/
def runScript (script : Script) : Step Unit :=
  unlessStopped do
    let program ← ofExcept script.program
    runFrames [program]

end Step

end Bitcoin
