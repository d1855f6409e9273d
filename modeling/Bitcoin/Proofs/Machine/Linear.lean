import Bitcoin.Proofs.Machine.Context
import Bitcoin.Proofs.Script.Basic
import Mathlib.Tactic.Use

/-!
# Executing tokens from the left

`Step.readTokens` executes a script without its structure. It reads the tokens from the
left and keeps, for each conditional that is open, whether the part being read is the one
to execute (`Selection`). Other tokens than delimiters are executed when this holds of all
open conditionals, and are skipped otherwise.

Executing the program of a script (`Step.runScript`) is the same as executing its tokens
from the left, whatever the machine, as long as the machine allows conditionals to be
entered as deep as scripts nest them.
-/

namespace Bitcoin

/-- For each conditional that is open, the innermost first, whether the part being read is
the one to execute. -/
abbrev Selection := List Bool

/-- Whether tokens are to be executed. -/
def Selection.live (selection : Selection) : Bool :=
  selection.all id

/-- The selection behind the beginning of an alternative. -/
def Selection.alternate : Selection → Selection
  | [] => []
  | selected :: outer => (!selected) :: outer

namespace Step

/-- Executes a token, or skips it, and gives the selection behind it. -/
def readToken (token : Token) (selection : Selection) : Step Selection :=
  match token with
  | .push p => do
    if selection.live then element (push (.bytes p.data))
    return selection
  | .op o =>
    match o with
    | .otherwise => return selection.alternate
    | .endIf => return selection.tail
    | o =>
      match Conditional.ofOpcode? o with
      | some c => do
        if selection.live then
          checkSize
          let condition ← popBool
          return c.takes condition :: selection
        else return false :: selection
      | none => do
        if selection.live then element (execute o)
        return selection

/-- Executes tokens from the left, until the machine stops. -/
def readTokens : List Token → Selection → Step Unit
  | [], _ => return ()
  | token :: rest, selection => do
    let selection ← readToken token selection
    unlessStopped (readTokens rest selection)

variable {m : Machine} {selection : Selection}

/-- An opcode that is no delimiter is executed where the selection says so. -/
theorem readToken_op {o : Opcode} (ho : o.isDelimiter = false) (selection : Selection) :
  readToken (.op o) selection
    = (do
        if selection.live then element (execute o)
        return selection)
  := by
  cases o <;> first
    | cases ho; done
    | rfl

/-- A delimiter that begins a conditional takes its condition only where it is executed. -/
theorem readToken_opener (c : Conditional) (selection : Selection) :
  readToken (.op c.opcode) selection
    = if selection.live then do
        checkSize
        let condition ← popBool
        return c.takes condition :: selection
      else return false :: selection
  := by
  cases c <;> rfl

/-! ### Tokens that are skipped -/

/-- A token that does not touch the machine only changes the selection. -/
theorem readTokens_cons_of_pure {token : Token} {selection' : Selection}
    (h : readToken token selection = pure selection') (rest : List Token)
    (hm : m.stopped = false) :
  readTokens (token :: rest) selection m = readTokens rest selection' m
  := by
  rw [readTokens, h]
  apply unlessStopped_of_running _ hm

/-- A program in a part that is not selected is skipped. -/
theorem readTokens_tokens_of_dead
    {room : Nat} {p : Program} (hp : p.Nested room) (rest : List Token)
    (hdead : selection.live = false) (hm : m.stopped = false) :
  readTokens (p.tokens ++ rest) selection m = readTokens rest selection m
  := by
  induction hp generalizing rest selection with
  | done => rfl
  | @push _ p _ _ ih =>
    rw [Program.tokens, List.cons_append, readTokens_cons_of_pure _ _ hm]
    · apply ih rest hdead
    · rw [readToken, hdead]
      rfl
  | op ho _ ih =>
    rw [Program.tokens, List.cons_append, readTokens_cons_of_pure _ _ hm]
    · apply ih rest hdead
    · rw [readToken_op ho, hdead]
      rfl
  | @branch _ c _ _ _ _ ihBody ih =>
    simp only [Program.tokens, List.cons_append, List.append_assoc]
    have opener : readToken (.op c.opcode) selection = pure (false :: selection) := by
      rw [readToken_opener, hdead]
      rfl
    rw [readTokens_cons_of_pure opener _ hm, ihBody _ rfl, readTokens_cons_of_pure rfl _ hm]
    apply ih rest hdead
  | @branchElse _ c _ _ _ _ _ _ ihBody ihAlternative ih =>
    simp only [Program.tokens, List.cons_append, List.append_assoc]
    have opener : readToken (.op c.opcode) selection = pure (false :: selection) := by
      rw [readToken_opener, hdead]
      rfl
    rw [readTokens_cons_of_pure opener _ hm, ihBody _ rfl, readTokens_cons_of_pure rfl _ hm]
    -- The alternative of a conditional that is skipped looks selected, but the part around
    -- it is not.
    have alternative : Selection.live (Selection.alternate (false :: selection)) = false := by
      simpa [Selection.live, Selection.alternate] using hdead
    rw [ihAlternative _ alternative, readTokens_cons_of_pure rfl _ hm]
    apply ih rest hdead

/-! ### Tokens that are executed -/

/-- Behind a step it is enough to compare executions on machines that are still running and
have the same context. -/
theorem bind_unlessStopped_assoc
    {α : Type} {x : Step α} (hx : KeepsContext x) {next first : α → Step Unit} {second : Step Unit}
    (h : ∀ (a : α) (m' : Machine), m.SameContext m' → m'.stopped = false →
      next a m' = (first a >>= fun _ => unlessStopped second) m') :
  (x >>= fun a => unlessStopped (next a)) m
    = ((x >>= fun a => unlessStopped (first a)) >>= fun _ => unlessStopped second) m
  := by
  cases e : x m with
  | error err m' =>
    rw [bind_of_error e, bind_of_error (bind_of_error e _)]
  | ok a m' =>
    rw [bind_of_ok e, bind_congr_left (bind_of_ok e _)]
    cases hm' : m'.stopped with
    | true =>
      rw [unlessStopped_of_stopped _ hm', bind_of_ok (unlessStopped_of_stopped _ hm'),
        unlessStopped_of_stopped _ hm']
    | false =>
      rw [unlessStopped_of_running _ hm', bind_congr_left (unlessStopped_of_running _ hm')]
      apply h a m' (hx.of_ok e) hm'

/-- A token that is an element is executed as the element is, and then what follows it. -/
theorem readTokens_cons_of_element {token : Token} {body next second : Step Unit}
    {rest : List Token} (hbody : KeepsContext (element body))
    (htoken : readToken token selection = element body >>= fun _ => pure selection)
    (hrest : ∀ m' : Machine, m.SameContext m' → m'.stopped = false →
      readTokens rest selection m' = (next >>= fun _ => unlessStopped second) m') :
  readTokens (token :: rest) selection m
    = ((element body >>= fun _ => unlessStopped next) >>= fun _ => unlessStopped second) m
  := by
  rw [readTokens, htoken, bind_assoc]
  simp only [pure_bind]
  apply bind_unlessStopped_assoc hbody fun _ => hrest

/-- The opcode that opens a conditional takes the condition as the conditional does. -/
theorem readTokens_opener_cases (c : Conditional) (rest : List Token)
    (hlive : selection.live = true) (hm : m.stopped = false) :
  (∃ e m', readTokens (.op c.opcode :: rest) selection m = .error e m'
      ∧ ∀ {β : Type} (f : Bool → Step β),
        (checkSize >>= fun _ => popBool >>= f) m = .error e m')
    ∨ ∃ condition m', m'.stopped = false ∧ m'.limits = m.limits
      ∧ readTokens (.op c.opcode :: rest) selection m
        = readTokens rest (c.takes condition :: selection) m'
      ∧ ∀ {β : Type} (f : Bool → Step β),
        (checkSize >>= fun _ => popBool >>= f) m = f condition m'
  := by
  have opener : readToken (.op c.opcode) selection
      = checkSize >>= fun _ => popBool >>= fun b => pure (c.takes b :: selection) := by
    rw [readToken_opener, hlive]
    rfl
  rw [readTokens, opener]
  rcases condition_cases m with
    ⟨e, m', hcondition⟩ | ⟨condition, m', hstopped, hlimits, hcondition⟩
  · left
    use e, m', bind_of_error (hcondition _) _
  · right
    have token := hcondition fun b => (pure (c.takes b :: selection) : Step Selection)
    rw [hm] at hstopped
    use condition, m', hstopped, hlimits
    rw [bind_of_ok token, unlessStopped_of_running _ hstopped]
    use rfl

/-- Executing the tokens of a program in a part that is selected is executing the program,
and then what follows it. The program is as deep as the conditionals around it, so that
the machine never refuses to enter one. -/
theorem readTokens_tokens_of_live
    {room : Nat} {p : Program} (hp : p.Nested room) (rest : List Token) {depth : Nat}
    (hdepth : depth + room ≤ Program.maximumDepth + 1) (hlive : selection.live = true)
    (hlimit : Program.maximumDepth ≤ m.limits.branchDepth) (hm : m.stopped = false) :
  readTokens (p.tokens ++ rest) selection m
    = (p.run depth >>= fun _ => unlessStopped (readTokens rest selection)) m
  := by
  induction hp generalizing rest depth selection m with
  | done =>
    symm
    apply unlessStopped_of_running _ hm
  | @push _ p _ _ ih =>
    rw [Program.tokens, List.cons_append, Program.run]
    have token : readToken (.push p) selection
        = element (push (.bytes p.data)) >>= fun _ => pure selection := by
      rw [readToken, hlive]
      rfl
    apply readTokens_cons_of_element (Obeys.keepsContext (.element (.push trivial))) token
    intro m' hm' running
    apply ih rest hdepth hlive (hm'.limits ▸ hlimit) running
  | @op _ o _ ho _ ih =>
    rw [Program.tokens, List.cons_append, Program.run]
    have token : readToken (.op o) selection
        = element (execute o) >>= fun _ => pure selection := by
      rw [readToken_op ho, hlive]
      rfl
    apply readTokens_cons_of_element (Obeys.keepsContext (.element_execute fun _ => trivial)) token
    intro m' hm' running
    apply ih rest hdepth hlive (hm'.limits ▸ hlimit) running
  | @branch room c body rest' hbody hrest ihBody ih =>
    have hinner : depth + 1 + room ≤ Program.maximumDepth + 1 := by omega
    have hselected : Selection.live (true :: selection) = true := hlive
    simp only [Program.tokens, List.cons_append, List.append_assoc]
    rw [Program.run]
    rcases readTokens_opener_cases c _ hlive hm with
      ⟨e, m', hopener, hcondition⟩ | ⟨condition, m', hm', hlimits, hopener, hcondition⟩
    · rw [hopener, bind_of_error (hcondition _)]
    · have henter : depth ≤ m'.limits.branchDepth := by rw [hlimits]; omega
      rw [hopener, bind_congr_left (hcondition _)]
      cases c.takes condition with
      | false =>
        rw [readTokens_tokens_of_dead hbody _ rfl hm', readTokens_cons_of_pure rfl _ hm']
        simp only [Bool.false_eq_true, if_false]
        rw [bind_congr_left (unlessStopped_of_running _ hm')]
        apply ih _ hdepth hlive (hlimits ▸ hlimit) hm'
      | true =>
        simp only [if_true]
        rw [bind_congr_left (bind_of_ok (enter_of_le henter) _),
          ihBody _ hinner hselected (hlimits ▸ hlimit) hm']
        apply bind_unlessStopped_assoc (.run body _)
        intro _ m'' hm'' running
        rw [readTokens_cons_of_pure rfl _ running]
        apply ih _ hdepth hlive (hm''.limits ▸ hlimits ▸ hlimit) running
  | @branchElse room c body alternative rest' hbody halternative hrest ihBody ihAlternative ih =>
    have hinner : depth + 1 + room ≤ Program.maximumDepth + 1 := by omega
    have hselected : Selection.live (true :: selection) = true := hlive
    simp only [Program.tokens, List.cons_append, List.append_assoc]
    rw [Program.run]
    rcases readTokens_opener_cases c _ hlive hm with
      ⟨e, m', hopener, hcondition⟩ | ⟨condition, m', hm', hlimits, hopener, hcondition⟩
    · rw [hopener, bind_of_error (hcondition _)]
    · have henter : depth ≤ m'.limits.branchDepth := by rw [hlimits]; omega
      rw [hopener, bind_congr_left (hcondition _),
        bind_congr_left (bind_of_ok (enter_of_le henter) _)]
      cases c.takes condition with
      | false =>
        have halternate : Selection.alternate (false :: selection) = true :: selection := rfl
        rw [readTokens_tokens_of_dead hbody _ rfl hm', readTokens_cons_of_pure rfl _ hm',
          halternate, ihAlternative _ hinner hselected (hlimits ▸ hlimit) hm']
        simp only [Bool.false_eq_true, if_false]
        apply bind_unlessStopped_assoc (.run alternative _)
        intro _ m'' hm'' running
        rw [readTokens_cons_of_pure rfl _ running]
        apply ih _ hdepth hlive (hm''.limits ▸ hlimits ▸ hlimit) running
      | true =>
        rw [ihBody _ hinner hselected (hlimits ▸ hlimit) hm']
        simp only [if_true]
        apply bind_unlessStopped_assoc (.run body _)
        intro _ m'' hm'' running
        rw [readTokens_cons_of_pure rfl _ running,
          readTokens_tokens_of_dead halternative _ rfl running,
          readTokens_cons_of_pure rfl _ running]
        apply ih _ hdepth hlive (hm''.limits ▸ hlimits ▸ hlimit) running

/-- A script with a program is executed as its tokens are from the left. -/
theorem runScript_of_program
    {script : Script} {p : Program} (h : script.program = .ok p)
    (hp : p.Nested Program.maximumDepth)
    (hm : m.stopped = false) (hlimit : Program.maximumDepth ≤ m.limits.branchDepth) :
  runScript script m = readTokens p.tokens [] m
  := by
  have hdepth : 1 + Program.maximumDepth ≤ Program.maximumDepth + 1 := by omega
  have hrun := readTokens_tokens_of_live hp [] hdepth (rfl : Selection.live [] = true) hlimit hm
  rw [runScript_eq_unlessStopped h, unlessStopped_of_running _ hm]
  rw [List.append_nil] at hrun
  rw [hrun]
  cases e : p.run 1 m with
  | error err m' => rw [bind_of_error e]
  | ok _ m' =>
    rw [bind_of_ok e, unlessStopped]
    split <;> rfl

end Step

/-- A byte string that has a structure is executed as the tokens it is taken apart into
are from the left: the stacks, the match count, whether the machine stops and the error,
if there is one, are the same. -/
theorem Step.runScript_encoded_eq_readTokens
    {bytes : Bytes} {tokens : List Token} (h : (Script.encoded bytes).tokens = .ok tokens)
    {m : Machine} (hm : m.stopped = false)
    (hlimit : Program.maximumDepth ≤ m.limits.branchDepth) :
  Token.decodeAll bytes = .ok tokens
    ∧ Step.runScript (.encoded bytes) m = Step.readTokens tokens [] m
  := by
  obtain ⟨p, hprogram, rfl⟩ := Script.tokens_eq_ok_iff.mp h
  obtain ⟨htokens, hp⟩ := Script.program_encoded_eq_ok_iff.mp hprogram
  use htokens
  apply Step.runScript_of_program hprogram hp hm hlimit

/-- A conditional whose first part is not taken, executed from the left. -/
theorem Step.runScript_encoded_ifElse :
  (Script.encoded [0x00, 0x63, 0x52, 0x67, 0x53, 0x68, 0x93]).tokens
      = .ok [.op .zero, .op .ifTrue, .op .two, .op .otherwise, .op .three, .op .endIf, .op .add]
    ∧ Step.runScript (.encoded [0x00, 0x63, 0x52, 0x67, 0x53, 0x68, 0x93]) Machine.initial
      = .error (.execution (.tooFewOperands 2)) { Machine.initial with stack := [.number 3] }
  := by
  have htokens : (Script.encoded [0x00, 0x63, 0x52, 0x67, 0x53, 0x68, 0x93]).tokens
      = .ok [.op .zero, .op .ifTrue, .op .two, .op .otherwise, .op .three, .op .endIf,
        .op .add] := by
    rfl
  have hlimit : Program.maximumDepth ≤ Machine.initial.limits.branchDepth := by decide
  have hrunning : Machine.initial.stopped = false := rfl
  have hrun := runScript_encoded_eq_readTokens htokens hrunning hlimit
  use htokens
  rw [hrun.2]
  rfl

end Bitcoin
