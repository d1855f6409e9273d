import Bitcoin.Script.Token

/-!
# Programs

The conditionals of a script enclose parts of it. A `Program` is a script with this
structure: what follows an element is its continuation, and a conditional holds the
enclosed parts as programs of their own. `Program.ofTokens` gives a sequence of tokens its
structure, if the conditionals are balanced and not nested too deeply: it reads the tokens
in order and keeps a stack of the conditionals that are open (`Builder`). `Program.encode`
writes a program by a list of the elements and delimiters that are still to be written
(`Work`), and `Program.tokens` forgets the structure again.
-/

namespace Bitcoin

/-- Whether a conditional takes its first part on a true or on a false condition. -/
inductive Conditional where
  | ifTrue
  | ifFalse
deriving DecidableEq

namespace Conditional

/-- The opcode that opens a conditional. -/
def opcode : Conditional → Opcode
  | .ifTrue => .ifTrue
  | .ifFalse => .ifFalse

/-- The sort of conditional that an opcode opens. -/
def ofOpcode? : Opcode → Option Conditional
  | .ifTrue => some .ifTrue
  | .ifFalse => some .ifFalse
  | _ => none

/-- Whether the first part is taken on a condition. -/
def takes (conditional : Conditional) (condition : Bool) : Bool :=
  match conditional with
  | .ifTrue => condition
  | .ifFalse => !condition

end Conditional

/-- A script whose conditionals enclose programs. -/
inductive Program where
  /-- Nothing is left. -/
  | done
  /-- A push, and what follows it. -/
  | push (push : Push) (rest : Program)
  /-- An opcode, and what follows it. -/
  | op (op : Opcode) (rest : Program)
  /-- A conditional with one part, and what follows it. -/
  | branch (conditional : Conditional) (body rest : Program)
  /-- A conditional with two parts, and what follows it. -/
  | branchElse (conditional : Conditional) (body alternative rest : Program)
deriving DecidableEq

/-- An element of a program. -/
inductive Node where
  | push (push : Push)
  | op (op : Opcode)
  | branch (conditional : Conditional) (body : Program) (alternative? : Option Program)
deriving DecidableEq

/-- The program that begins with an element. -/
def Node.followedBy (node : Node) (rest : Program) : Program :=
  match node with
  | .push p => .push p rest
  | .op o => .op o rest
  | .branch c body none => .branch c body rest
  | .branch c body (some alternative) => .branchElse c body alternative rest

namespace Program

/-- The greatest depth to which conditionals are nested. -/
def maximumDepth : Nat := 256

/-- The tokens of a program, in order. -/
def tokens : Program → List Token
  | .done => []
  | .push p rest => .push p :: rest.tokens
  | .op o rest => .op o :: rest.tokens
  | .branch c body rest =>
    .op c.opcode :: (body.tokens ++ .op .endIf :: rest.tokens)
  | .branchElse c body alternative rest =>
    .op c.opcode
      :: (body.tokens ++ .op .otherwise :: (alternative.tokens ++ .op .endIf :: rest.tokens))

/-- The elements of a program, in order. -/
def nodes : Program → List Node
  | .done => []
  | .push p rest => .push p :: rest.nodes
  | .op o rest => .op o :: rest.nodes
  | .branch c body rest => .branch c body none :: rest.nodes
  | .branchElse c body alternative rest => .branch c body (some alternative) :: rest.nodes

/-- The program of elements that are given from the last to the first. -/
def ofReversed (nodes : List Node) : Program :=
  nodes.foldl (fun rest node => node.followedBy rest) .done

end Program

/-! ### Writing programs -/

/-- What is still to be written of a program. -/
inductive Work where
  /-- An element, with all that it encloses. -/
  | node (node : Node)
  /-- A delimiter. -/
  | emit (op : Opcode)
deriving DecidableEq

namespace Work

/-- The tokens that are written for a piece of work. -/
def tokens : Work → List Token
  | .node element => (element.followedBy .done).tokens
  | .emit o => [.op o]

/-- The work of writing a program. -/
def ofProgram (program : Program) : List Work :=
  program.nodes.map .node

theorem tokens_ofProgram (program : Program) :
  (ofProgram program).flatMap tokens = program.tokens
  := by
  rw [ofProgram]
  induction program with
  | done => rfl
  | push p rest ih | op o rest ih =>
    simp [Program.nodes, Program.tokens, ih, tokens, Node.followedBy]
  | branch c body rest _ ih | branchElse c body alternative rest _ _ ih =>
    simp [Program.nodes, Program.tokens, ih, tokens, Node.followedBy]

/-- The bytes that are written by a list of pieces of work. -/
def run : List Work → Bytes
  | [] => []
  | .emit o :: rest | .node (.op o) :: rest => o.toByte :: run rest
  | .node (.push p) :: rest => p.encode ++ run rest
  | .node (.branch c body none) :: rest =>
    c.opcode.toByte :: run (ofProgram body ++ .emit .endIf :: rest)
  | .node (.branch c body (some alternative)) :: rest =>
    c.opcode.toByte
      :: run (ofProgram body ++ .emit .otherwise
        :: (ofProgram alternative ++ .emit .endIf :: rest))
termination_by work => (work.flatMap tokens).length
decreasing_by
  all_goals simp [tokens_ofProgram, tokens, Node.followedBy, Program.tokens]

end Work

/-- The bytes of a program. -/
def Program.encode (program : Program) : Bytes :=
  Work.run (Work.ofProgram program)

/-! ### Reading programs -/

/-- A conditional whose end has not been read. -/
structure OpenBranch where
  conditional : Conditional
  /-- The elements of its first part, the last one first. -/
  body : List Node
  /-- The elements of its second part, once this has begun. -/
  alternative? : Option (List Node)
deriving DecidableEq

namespace OpenBranch

/-- Adds an element to the part that is being read. -/
def add (branch : OpenBranch) (node : Node) : OpenBranch :=
  match branch.alternative? with
  | none => { branch with body := node :: branch.body }
  | some alternative => { branch with alternative? := some (node :: alternative) }

/-- The element that a conditional is at its end. -/
def close (branch : OpenBranch) : Node :=
  .branch branch.conditional (Program.ofReversed branch.body)
    (branch.alternative?.map Program.ofReversed)

end OpenBranch

/-- A program of which some tokens have been read. -/
structure Builder where
  /-- The conditionals that are open, the innermost first. -/
  opened : List OpenBranch
  /-- The elements in front of them, the last one first. -/
  root : List Node
deriving DecidableEq

namespace Builder

/-- Nothing has been read. -/
def start : Builder :=
  ⟨[], []⟩

/-- Adds an element to the innermost conditional, or to the program. -/
def add (builder : Builder) (node : Node) : Builder :=
  match builder.opened with
  | [] => { builder with root := node :: builder.root }
  | branch :: outer => { builder with opened := branch.add node :: outer }

/-- Opens a conditional. -/
def openBranch (builder : Builder) (c : Conditional) : Except Error Builder :=
  if builder.opened.length ≥ Program.maximumDepth then
    .error (.parsing (.nestedTooDeep Program.maximumDepth))
  else .ok { builder with opened := ⟨c, [], none⟩ :: builder.opened }

/-- Begins the second part of the innermost conditional. -/
def beginAlternative (builder : Builder) : Except Error Builder :=
  match builder.opened with
  | [] => .error (.parsing .strayElse)
  | branch :: outer =>
    if branch.alternative?.isSome then .error (.parsing .secondElse)
    else .ok { builder with opened := { branch with alternative? := some [] } :: outer }

/-- Ends the innermost conditional. -/
def closeBranch (builder : Builder) : Except Error Builder :=
  match builder.opened with
  | [] => .error (.parsing .strayEndIf)
  | branch :: outer => .ok ({ builder with opened := outer }.add branch.close)

/-- Reads a token. -/
def read (builder : Builder) (token : Token) : Except Error Builder :=
  match token with
  | .push p => .ok (builder.add (.push p))
  | .op o =>
    match o with
    | .ifTrue => builder.openBranch .ifTrue
    | .ifFalse => builder.openBranch .ifFalse
    | .otherwise => builder.beginAlternative
    | .endIf => builder.closeBranch
    | _ => .ok (builder.add (.op o))

/-- The program, if no conditional is open. -/
def finish (builder : Builder) : Except Error Program :=
  match builder.opened with
  | [] => .ok (Program.ofReversed builder.root)
  | _ :: _ => .error (.parsing .missingEndIf)

end Builder

/-- The program of a sequence of tokens. -/
def Program.ofTokens (tokens : List Token) : Except Error Program := do
  let builder ← tokens.foldlM Builder.read .start
  builder.finish

end Bitcoin
