import Bitcoin.Script.Program
import Mathlib.Tactic.Use

/-!
# The structure of token sequences

`Program.Nested room` are the programs whose conditionals are nested at most `room` deep.
`Program.ofTokens` gives a program exactly to the token sequences of programs nested at
most `Program.maximumDepth` deep, and the program it gives is the one with these tokens
(`Program.ofTokens_eq_ok_iff`).

The program is built while the tokens are read. What a `Builder` has read are the tokens of its
elements and, for each conditional that is open, of its opener and its parts so far
(`Builder.tokens`), and the elements fit into the conditionals that enclose them
(`Builder.Reads`). Reading one token keeps this (`Builder.Reads.read`), and so does reading them
all.
-/

namespace Bitcoin

/-- Whether an opcode gives a script its structure. -/
def Opcode.isDelimiter : Opcode → Bool
  | .ifTrue | .ifFalse | .otherwise | .endIf => true
  | _ => false

/-- Whether an opcode begins or ends a conditional. -/
def Opcode.isBracket : Opcode → Bool
  | .ifTrue | .ifFalse | .endIf => true
  | _ => false

theorem Opcode.isDelimiter_of_isBracket {o : Opcode} (h : o.isBracket = true) :
  o.isDelimiter = true
  := by
  cases o <;> first | rfl | cases h

@[simp]
theorem Conditional.isBracket_opcode (c : Conditional) :
  c.opcode.isBracket = true
  := by
  cases c <;> rfl

namespace Program

/-- The programs whose conditionals are nested at most `room` deep and whose other opcodes
are no delimiters. -/
inductive Nested : Nat → Program → Prop where
  | done {room : Nat} : Nested room .done
  | push {room : Nat} {p : Push} {rest : Program} :
      Nested room rest → Nested room (.push p rest)
  | op {room : Nat} {o : Opcode} {rest : Program} :
      o.isDelimiter = false → Nested room rest → Nested room (.op o rest)
  | branch {room : Nat} {c : Conditional} {body rest : Program} :
      Nested room body → Nested (room + 1) rest → Nested (room + 1) (.branch c body rest)
  | branchElse {room : Nat} {c : Conditional} {body alternative rest : Program} :
      Nested room body → Nested room alternative → Nested (room + 1) rest →
        Nested (room + 1) (.branchElse c body alternative rest)

/-- A program followed by another one. -/
def append : Program → Program → Program
  | .done, q => q
  | .push p rest, q => .push p (rest.append q)
  | .op o rest, q => .op o (rest.append q)
  | .branch c body rest, q => .branch c body (rest.append q)
  | .branchElse c body alternative rest, q => .branchElse c body alternative (rest.append q)

/-- The tokens of one program follow those of the other. -/
theorem tokens_append (p q : Program) :
  (p.append q).tokens = p.tokens ++ q.tokens
  := by
  induction p with
  | done => rfl
  | push p rest ih => rw [append, tokens, tokens, ih, List.cons_append]
  | op o rest ih => rw [append, tokens, tokens, ih, List.cons_append]
  | branch c body rest _ ih => simp only [append, tokens, ih, List.cons_append, List.append_assoc]
  | branchElse c body alternative rest _ _ ih =>
    simp only [append, tokens, ih, List.cons_append, List.append_assoc]

/-- Programs that follow each other are not nested more deeply than each of them. -/
theorem Nested.append {room : Nat} {p q : Program} (hp : p.Nested room) (hq : q.Nested room) :
  (p.append q).Nested room
  := by
  induction hp with
  | done => apply hq
  | push _ ih => exact .push (ih hq)
  | op ho _ ih => exact .op ho (ih hq)
  | branch hbody _ _ ih => exact .branch hbody (ih hq)
  | branchElse hbody halternative _ _ _ ih => exact .branchElse hbody halternative (ih hq)

/-! ### Elements -/

theorem tokens_followedBy (node : Node) (rest : Program) :
  (node.followedBy rest).tokens = (node.followedBy .done).tokens ++ rest.tokens
  := by
  rcases node with p | o | ⟨c, body, _ | alternative⟩ <;>
    simp [Node.followedBy, tokens]

theorem nested_followedBy_iff {room : Nat} {node : Node} {rest : Program} :
  Nested room (node.followedBy rest)
    ↔ Nested room (node.followedBy .done) ∧ Nested room rest
  := by
  rcases node with p | o | ⟨c, body, _ | alternative⟩
  · constructor
    · rintro ⟨⟩
      exact ⟨.push .done, ‹_›⟩
    · rintro ⟨_, hrest⟩
      exact .push hrest
  · constructor
    · rintro ⟨⟩
      exact ⟨.op ‹_› .done, ‹_›⟩
    · rintro ⟨⟨⟩, hrest⟩
      exact .op ‹_› hrest
  · constructor
    · rintro ⟨⟩
      exact ⟨.branch ‹_› .done, ‹_›⟩
    · rintro ⟨⟨⟩, hrest⟩
      exact .branch ‹_› hrest
  · constructor
    · rintro ⟨⟩
      exact ⟨.branchElse ‹_› ‹_› .done, ‹_›⟩
    · rintro ⟨⟨⟩, hrest⟩
      exact .branchElse ‹_› ‹_› hrest

end Program

namespace Node

/-- The tokens of an element. -/
def tokens (node : Node) : List Token :=
  (node.followedBy .done).tokens

/-- Whether the conditionals of an element are nested at most `room` deep. -/
def Nested (room : Nat) (node : Node) : Prop :=
  (node.followedBy .done).Nested room

end Node

namespace Program

/-- What elements, given from the last to the first, make in front of a program. -/
theorem foldl_followedBy_tokens (nodes : List Node) (rest : Program) :
  (nodes.foldl (fun rest node => node.followedBy rest) rest).tokens
    = nodes.reverse.flatMap Node.tokens ++ rest.tokens
  := by
  induction nodes generalizing rest with
  | nil => rfl
  | cons node nodes ih =>
    rw [List.foldl_cons, ih, tokens_followedBy, List.reverse_cons, List.flatMap_append]
    simp [Node.tokens]

/-- A program that is put together has the tokens of its elements, from the last one found to the
first. -/
theorem tokens_ofReversed (nodes : List Node) :
  (ofReversed nodes).tokens = nodes.reverse.flatMap Node.tokens
  := by
  rw [ofReversed, foldl_followedBy_tokens, tokens, List.append_nil]

theorem nested_foldl_followedBy {room : Nat} {nodes : List Node} {rest : Program}
    (hnodes : ∀ node ∈ nodes, node.Nested room) (hrest : rest.Nested room) :
  (nodes.foldl (fun rest node => node.followedBy rest) rest).Nested room
  := by
  induction nodes generalizing rest with
  | nil => exact hrest
  | cons node nodes ih =>
    obtain ⟨hnode, hnodes⟩ := List.forall_mem_cons.mp hnodes
    exact ih hnodes (nested_followedBy_iff.mpr ⟨hnode, hrest⟩)

/-- A program that is put together is not nested more deeply than its elements. -/
theorem nested_ofReversed {room : Nat} {nodes : List Node} (h : ∀ node ∈ nodes, node.Nested room) :
  (ofReversed nodes).Nested room
  := nested_foldl_followedBy h .done

/-- A program is made of its elements. -/
theorem ofReversed_reverse_nodes (p : Program) :
  ofReversed p.nodes.reverse = p
  := by
  rw [ofReversed, List.foldl_reverse]
  induction p with
  | done => rfl
  | push p rest ih => exact congrArg (push p) ih
  | op o rest ih => exact congrArg (op o) ih
  | branch c body rest _ ih => exact congrArg (branch c body) ih
  | branchElse c body alternative rest _ _ ih => exact congrArg (branchElse c body alternative) ih

end Program

namespace Builder

open Program (maximumDepth)

/-! ### From programs to tokens -/

/-- The builder after all the elements of a program have been added, one after the other. -/
def addAll (builder : Builder) (nodes : List Node) : Builder :=
  nodes.foldl add builder

theorem addAll_open (branch : OpenBranch) (outer : List OpenBranch) (root nodes : List Node) :
  addAll ⟨branch :: outer, root⟩ nodes = ⟨nodes.foldl OpenBranch.add branch :: outer, root⟩
  := by
  induction nodes generalizing branch with
  | nil => rfl
  | cons node nodes ih => exact ih (branch.add node)

theorem addAll_root (root nodes : List Node) :
  addAll ⟨[], root⟩ nodes = ⟨[], nodes.reverse ++ root⟩
  := by
  induction nodes generalizing root with
  | nil => rfl
  | cons node nodes ih =>
    rw [List.reverse_cons, List.append_assoc]
    exact ih (node :: root)

theorem foldl_add_body (c : Conditional) (body nodes : List Node) :
  nodes.foldl OpenBranch.add ⟨c, body, none⟩ = ⟨c, nodes.reverse ++ body, none⟩
  := by
  induction nodes generalizing body with
  | nil => rfl
  | cons node nodes ih =>
    rw [List.reverse_cons, List.append_assoc]
    exact ih (node :: body)

theorem foldl_add_alternative (c : Conditional) (body alternative nodes : List Node) :
  nodes.foldl OpenBranch.add ⟨c, body, some alternative⟩
    = ⟨c, body, some (nodes.reverse ++ alternative)⟩
  := by
  induction nodes generalizing alternative with
  | nil => rfl
  | cons node nodes ih =>
    rw [List.reverse_cons, List.append_assoc]
    exact ih (node :: alternative)

/-- An opcode that is no delimiter becomes an element. -/
theorem read_op {o : Opcode} (ho : o.isDelimiter = false) (builder : Builder) :
  builder.read (.op o) = .ok (builder.add (.op o))
  := by
  cases o <;> first | rfl | cases ho

/-- The beginning of a conditional opens a branch, unless there are too many of them. -/
theorem read_opener (c : Conditional) {opened : List OpenBranch} (h : opened.length < maximumDepth)
    (root : List Node) :
  read ⟨opened, root⟩ (.op c.opcode) = .ok ⟨⟨c, [], none⟩ :: opened, root⟩
  := by
  have hopen : openBranch ⟨opened, root⟩ c = .ok ⟨⟨c, [], none⟩ :: opened, root⟩ := by
    rw [openBranch, if_neg (Nat.not_le.mpr h)]
  cases c <;> exact hopen

/-- Adding an element opens no branch. -/
theorem length_opened_add (builder : Builder) (node : Node) :
  (builder.add node).opened.length = builder.opened.length
  := by
  obtain ⟨_ | ⟨branch, outer⟩, root⟩ := builder
  · rfl
  · rfl

theorem read_cons {t : Token} {builder builder' : Builder} (h : builder.read t = .ok builder')
    (ts : List Token) :
  (t :: ts).foldlM read builder = ts.foldlM read builder'
  := by
  rw [List.foldlM_cons, h]
  rfl

/-- Reading the tokens of a program adds its elements. -/
theorem foldlM_read_tokens {room : Nat} {p : Program} (hp : p.Nested room) {builder : Builder}
    (h : builder.opened.length + room ≤ maximumDepth) (ts : List Token) :
  (p.tokens ++ ts).foldlM read builder = ts.foldlM read (builder.addAll p.nodes)
  := by
  induction hp generalizing builder ts with
  | done => rfl
  | @push _ p rest _ ih =>
    have hread : builder.read (.push p) = .ok (builder.add (.push p)) := rfl
    rw [Program.tokens, List.cons_append, read_cons hread, ih (by rwa [length_opened_add])]
    rfl
  | op ho _ ih =>
    rw [Program.tokens, List.cons_append, read_cons (read_op ho builder),
      ih (by rwa [length_opened_add])]
    rfl
  | @branch _ c body rest _ _ ihBody ih =>
    obtain ⟨opened, root⟩ := builder
    dsimp only at h
    have hlt : opened.length < maximumDepth := by omega
    have hend : read ⟨⟨c, body.nodes.reverse, none⟩ :: opened, root⟩ (.op .endIf)
        = .ok (add ⟨opened, root⟩ (.branch c body none)) := by
      change Except.ok (add ⟨opened, root⟩ (OpenBranch.close _)) = _
      rw [OpenBranch.close, Program.ofReversed_reverse_nodes]
      rfl
    simp only [Program.tokens, List.cons_append, List.append_assoc]
    rw [read_cons (read_opener c hlt root),
      ihBody (by rw [List.length_cons]; omega), addAll_open, foldl_add_body, List.append_nil,
      read_cons hend, ih (by rwa [length_opened_add])]
    rfl
  | @branchElse _ c body alternative rest _ _ _ ihBody ihAlternative ih =>
    obtain ⟨opened, root⟩ := builder
    dsimp only at h
    have hlt : opened.length < maximumDepth := by omega
    have helse : read ⟨⟨c, body.nodes.reverse, none⟩ :: opened, root⟩ (.op .otherwise)
        = .ok ⟨⟨c, body.nodes.reverse, some []⟩ :: opened, root⟩ := rfl
    have hend : read ⟨⟨c, body.nodes.reverse, some alternative.nodes.reverse⟩ :: opened, root⟩
        (.op .endIf) = .ok (add ⟨opened, root⟩ (.branch c body (some alternative))) := by
      change Except.ok (add ⟨opened, root⟩ (OpenBranch.close _)) = _
      rw [OpenBranch.close, Option.map_some, Program.ofReversed_reverse_nodes,
        Program.ofReversed_reverse_nodes]
    simp only [Program.tokens, List.cons_append, List.append_assoc]
    rw [read_cons (read_opener c hlt root),
      ihBody (by rw [List.length_cons]; omega), addAll_open, foldl_add_body, List.append_nil,
      read_cons helse, ihAlternative (by rw [List.length_cons]; omega), addAll_open,
      foldl_add_alternative, List.append_nil, read_cons hend, ih (by rwa [length_opened_add])]
    rfl

end Builder

/-! ### From tokens to programs -/

namespace OpenBranch

/-- The tokens of a conditional that is open. -/
def tokens (branch : OpenBranch) : List Token :=
  .op branch.conditional.opcode :: (branch.body.reverse.flatMap Node.tokens
    ++ match branch.alternative? with
      | none => []
      | some alternative => .op .otherwise :: alternative.reverse.flatMap Node.tokens)

/-- Whether the elements of a conditional that is open are nested at most `room` deep. -/
structure Nested (room : Nat) (branch : OpenBranch) : Prop where
  body : ∀ node ∈ branch.body, node.Nested room
  alternative : ∀ alternative ∈ branch.alternative?, ∀ node ∈ alternative, node.Nested room

variable {branch : OpenBranch} {node : Node} {room : Nat}

/-- An element that is added to a branch comes behind its tokens. -/
theorem tokens_add :
  (branch.add node).tokens = branch.tokens ++ node.tokens
  := by
  obtain ⟨c, body, _ | alternative⟩ := branch <;> simp [add, tokens]

theorem Nested.add (h : branch.Nested room) (hnode : node.Nested room) :
  (branch.add node).Nested room
  := by
  obtain ⟨c, body, _ | alternative⟩ := branch
  · exact ⟨List.forall_mem_cons.mpr ⟨hnode, h.body⟩, nofun⟩
  · refine ⟨h.body, ?_⟩
    rintro _ ⟨⟩
    exact List.forall_mem_cons.mpr ⟨hnode, h.alternative _ rfl⟩

/-- The end completes the tokens of a conditional. -/
theorem tokens_close :
  branch.close.tokens = branch.tokens ++ [.op .endIf]
  := by
  obtain ⟨c, body, _ | alternative⟩ := branch <;>
    simp [close, tokens, Node.tokens, Node.followedBy, Program.tokens, Program.tokens_ofReversed]

/-- A closed branch is nested one level more deeply than what was in it. -/
theorem Nested.close (h : branch.Nested room) :
  branch.close.Nested (room + 1)
  := by
  obtain ⟨c, body, _ | alternative⟩ := branch
  · exact .branch (Program.nested_ofReversed h.body) .done
  · exact .branchElse (Program.nested_ofReversed h.body)
      (Program.nested_ofReversed (h.alternative _ rfl)) .done

/-- Whether conditionals that are open enclose each other, the innermost first, and leave enough
room for the elements in them. -/
inductive Chained : List OpenBranch → Prop where
  | nil : Chained []
  | cons {branch : OpenBranch} {outer : List OpenBranch} {room : Nat} :
      outer.length + room + 1 = Program.maximumDepth → branch.Nested room → Chained outer →
        Chained (branch :: outer)

end OpenBranch

namespace Builder

open Program (maximumDepth)

/-- The tokens that have been read. -/
def tokens (builder : Builder) : List Token :=
  builder.root.reverse.flatMap Node.tokens ++ builder.opened.reverse.flatMap OpenBranch.tokens

/-- Whether a builder has read certain tokens, and its elements fit into their conditionals. -/
structure Reads (builder : Builder) (ts : List Token) : Prop where
  tokens : builder.tokens = ts
  root : ∀ node ∈ builder.root, node.Nested maximumDepth
  opened : OpenBranch.Chained builder.opened

variable {builder builder' : Builder} {ts : List Token}

/-- Nothing is read at first. -/
theorem reads_start :
  start.Reads []
  := ⟨rfl, List.forall_mem_nil _, .nil⟩

/-- An element that is added has its tokens read, if it is not nested too deeply for the place.
-/
theorem Reads.add {node : Node} (h : builder.Reads ts)
    (hnode : ∀ room, builder.opened.length + room = maximumDepth → node.Nested room) :
  (builder.add node).Reads (ts ++ node.tokens)
  := by
  obtain ⟨opened, root⟩ := builder
  obtain ⟨rfl, hroot, hopened⟩ := h
  cases hopened with
  | nil =>
    constructor
    · simp [Builder.add, Builder.tokens]
    · exact List.forall_mem_cons.mpr ⟨hnode _ (Nat.zero_add _), hroot⟩
    · exact .nil
  | @cons branch outer room hroom hbranch houter =>
    have hfits := hnode room (by rw [List.length_cons]; omega)
    constructor
    · simp [Builder.add, Builder.tokens, OpenBranch.tokens_add]
    · exact hroot
    · exact .cons hroom (hbranch.add hfits) houter

/-- A conditional may be opened as long as it is not nested too deeply. -/
theorem Reads.openBranch {c : Conditional} (h : builder.Reads ts)
    (hread : builder.openBranch c = .ok builder') :
  builder'.Reads (ts ++ [.op c.opcode])
  := by
  obtain ⟨opened, root⟩ := builder
  obtain ⟨rfl, hroot, hopened⟩ := h
  rw [Builder.openBranch] at hread
  split at hread
  · cases hread
  · next hlt =>
    cases hread
    have hroom : opened.length + (maximumDepth - opened.length - 1) + 1 = maximumDepth := by
      dsimp only at hlt
      omega
    constructor
    · simp [Builder.tokens, OpenBranch.tokens]
    · exact hroot
    · exact .cons hroom ⟨List.forall_mem_nil _, nofun⟩ hopened

/-- The second part of a conditional begins once. -/
theorem Reads.beginAlternative (h : builder.Reads ts)
    (hread : builder.beginAlternative = .ok builder') :
  builder'.Reads (ts ++ [.op .otherwise])
  := by
  obtain ⟨opened, root⟩ := builder
  obtain ⟨rfl, hroot, hopened⟩ := h
  cases hopened with
  | nil => cases hread
  | @cons branch outer room hroom hbranch houter =>
    obtain ⟨c, body, _ | alternative⟩ := branch
    · cases hread
      constructor
      · simp [Builder.tokens, OpenBranch.tokens]
      · exact hroot
      · refine .cons hroom ⟨hbranch.body, ?_⟩ houter
        rintro _ ⟨⟩
        exact List.forall_mem_nil _
    · cases hread

/-- A conditional becomes an element of the one around it. -/
theorem Reads.closeBranch (h : builder.Reads ts) (hread : builder.closeBranch = .ok builder') :
  builder'.Reads (ts ++ [.op .endIf])
  := by
  obtain ⟨opened, root⟩ := builder
  obtain ⟨rfl, hroot, hopened⟩ := h
  cases hopened with
  | nil => cases hread
  | @cons branch outer room hroom hbranch houter =>
    cases hread
    have hbefore : Reads ⟨outer, root⟩ (Builder.tokens ⟨outer, root⟩) := ⟨rfl, hroot, houter⟩
    have hfits : ∀ room', outer.length + room' = maximumDepth → branch.close.Nested room' := by
      intro room' hroom'
      obtain rfl : room' = room + 1 := by omega
      exact hbranch.close
    have hclosed := hbefore.add hfits
    rw [OpenBranch.tokens_close] at hclosed
    simpa [Builder.tokens] using hclosed

/-- Reading a token adds it to those that have been read. -/
theorem Reads.read {t : Token} (h : builder.Reads ts) (hread : builder.read t = .ok builder') :
  builder'.Reads (ts ++ [t])
  := by
  cases t with
  | push p =>
    cases hread
    exact h.add fun _ _ => .push .done
  | op o =>
    cases ho : o.isDelimiter with
    | false =>
      rw [read_op ho] at hread
      cases hread
      exact h.add fun _ _ => .op ho .done
    | true =>
      cases o <;> first
        | cases ho; done
        | exact h.openBranch (c := .ifTrue) hread
        | exact h.openBranch (c := .ifFalse) hread
        | exact h.beginAlternative hread
        | exact h.closeBranch hread

/-- So all the tokens of a sequence are read. -/
theorem Reads.foldlM_read {us : List Token} (h : builder.Reads ts)
    (hread : us.foldlM Builder.read builder = .ok builder') :
  builder'.Reads (ts ++ us)
  := by
  induction us generalizing builder ts with
  | nil =>
    cases hread
    rwa [List.append_nil]
  | cons u us ih =>
    rw [List.foldlM_cons] at hread
    cases hu : builder.read u with
    | error e =>
      rw [hu] at hread
      cases hread
    | ok next =>
      rw [hu] at hread
      have hrest := ih (h.read hu) hread
      rwa [List.append_assoc] at hrest

end Builder

namespace Program

/-- The tokens of a nested program have that program. -/
theorem ofTokens_tokens {p : Program} (hp : Nested maximumDepth p) :
  ofTokens p.tokens = .ok p
  := by
  have hread : p.tokens.foldlM Builder.read .start = .ok ⟨[], p.nodes.reverse⟩ := by
    have h := @Builder.foldlM_read_tokens _ p hp .start (Nat.le_of_eq (Nat.zero_add _)) []
    rwa [List.append_nil, Builder.start, Builder.addAll_root, List.append_nil] at h
  rw [ofTokens, hread]
  exact congrArg Except.ok p.ofReversed_reverse_nodes

/-- The token sequences that have a program are those of the nested programs. -/
theorem ofTokens_eq_ok_iff {ts : List Token} {p : Program} :
  ofTokens ts = .ok p ↔ Nested maximumDepth p ∧ p.tokens = ts
  := by
  constructor
  · intro h
    rw [ofTokens] at h
    cases hread : ts.foldlM Builder.read .start with
    | error e =>
      rw [hread] at h
      cases h
    | ok builder =>
      rw [hread] at h
      obtain ⟨htokens, hroot, hopened⟩ := Builder.reads_start.foldlM_read hread
      obtain ⟨opened, root⟩ := builder
      cases hopened with
      | cons _ _ _ => cases h
      | nil =>
        cases h
        refine ⟨nested_ofReversed hroot, ?_⟩
        simpa [Builder.tokens, tokens_ofReversed] using htokens
  · rintro ⟨hp, rfl⟩
    apply ofTokens_tokens hp

end Program

end Bitcoin
