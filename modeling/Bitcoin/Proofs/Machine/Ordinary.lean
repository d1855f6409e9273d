import Bitcoin.Proofs.Machine.Context

/-!
# What opcodes may do

An ordinary step puts at most so many items on the stacks, and if it fails, it is not because an
opcode that gives scripts their structure was to be executed (`Step.Ordinary`). Every other opcode
is ordinary and puts at most three items on the stacks (`Step.Ordinary.execute`), and a program of
such opcodes at most three for each of its tokens (`Step.Ordinary.run`). No opcode at all puts more
than three items there (`Step.size_le_of_execute`).
-/

namespace Bitcoin

namespace Step

/-- Whether a step, on a machine, puts at most `n` items on the stacks beyond those that it takes,
and does not fail because of the structure of scripts. -/
structure OrdinaryAt {α : Type} (n : Nat) (x : Step α) (m : Machine) : Prop where
  size_le : ∀ {a m'}, x m = .ok a m' → m'.size ≤ m.size + n
  error : ∀ {e m'}, x m = .error e m' → e.isStructural = false

/-- Whether a step is such on every machine. -/
def Ordinary {α : Type} (n : Nat) (x : Step α) : Prop :=
  ∀ m, OrdinaryAt n x m

/-- The law that allows everything but the errors of the structure of scripts. -/
def Law.ordinary : Law :=
  ofErrors (fun e => e.isStructural = false) fun _ => id

/-- The law admits programs without opcodes of the structure. -/
theorem Law.admits_ordinary {p : Program} (hp : ∀ o ∈ p.opcodes, o.isStructural = false) :
  ordinary.Admits p
  where
  push _ _ := trivial
  op o ho h := by
    rw [hp o ho] at h
    cases h

/-- The number of items that a step puts on the stacks, whatever its law. -/
theorem Obeys.size_le {α : Type} {law : Law} {n : Nat} {good : α → Prop} {x : Step α}
    (hx : Obeys law n good x) {m m' : Machine} (hm : law.Allows m) {a : α} (h : x m = .ok a m') :
  m'.size ≤ m.size + n
  := by
  have hsize := (hx m hm).change.size_le
  rwa [final_of_ok h] at hsize

/-- A step that obeys the law is ordinary. -/
theorem Obeys.ordinary {α : Type} {n : Nat} {good : α → Prop} {x : Step α}
    (hx : Obeys .ordinary n good x) :
  Ordinary n x
  := fun m =>
    { size_le := hx.size_le (Law.allows_ofErrors m)
      error := (hx m (Law.allows_ofErrors m)).error }

namespace Ordinary

/-- An opcode that is no part of the structure of scripts puts at most three items on the
stacks. -/
theorem execute {o : Opcode} (ho : o.isStructural = false) :
  Ordinary 3 (execute o)
  := by
  apply Obeys.ordinary
  apply Obeys.execute
  · intro h
    rw [ho] at h
    cases h
  · exact fun _ _ => trivial

/-- A program without opcodes of the structure puts at most three items on the stacks for each of
its tokens. -/
theorem run {p : Program} (hp : ∀ o ∈ p.opcodes, o.isStructural = false) (depth : Nat) :
  Ordinary (3 * p.tokens.length) (p.run depth)
  := Obeys.ordinary (.run (Law.admits_ordinary hp) depth)

end Ordinary

/-- No opcode puts more than three items on the stacks. -/
theorem size_le_of_execute {o : Opcode} {m m' : Machine} (h : execute o m = .ok () m') :
  m'.size ≤ m.size + 3
  := by
  have hexecute : Obeys.Any .free 3 (execute o) := .execute (fun _ => trivial) fun _ _ => trivial
  exact hexecute.size_le (Law.allows_ofErrors m) h

end Step

end Bitcoin
