import Bitcoin.Proofs.Machine.Law

/-!
# What execution leaves alone

Executing opcodes and programs changes the stacks, the match count and whether the machine
is stopped. The rest of the machine, its context, stays the same, also when the execution
ends with an error (`Step.KeepsContext`).
-/

namespace Bitcoin

namespace Step

/-- The execution leaves the context of every machine alone. -/
def KeepsContext {α : Type} (x : Step α) : Prop :=
  ∀ m : Machine, m.SameContext (x.final m)

/-- The law that allows everything but some errors. -/
def Law.ofErrors (error : Error → Prop) (h : ∀ e : Error, e.isStructural = false → error e) :
    Law where
  limits _ := True
  item _ := True
  operand _ := True
  error := error
  operand_of_toInt _ _ _ := trivial
  item_truth _ := trivial
  item_bytes _ := trivial
  item_small _ := trivial
  item_length _ := trivial
  item_depth _ _ := trivial
  item_result _ _ _ := trivial
  error_of_isStructural := h _

theorem Law.allows_ofErrors {error : Error → Prop}
    {h : ∀ e : Error, e.isStructural = false → error e} (m : Machine) :
  (ofErrors error h).Allows m
  := ⟨trivial, fun _ _ => trivial, fun _ _ => trivial⟩

/-- The law that allows everything. -/
def Law.free : Law :=
  ofErrors (fun _ => True) fun _ _ => trivial

/-- Every program is admitted by the law that allows everything. -/
theorem Law.admits_free (p : Program) :
  free.Admits p
  := ⟨fun _ _ => trivial, fun _ _ _ => trivial⟩

/-- Whatever obeys a law without conditions leaves the context alone. -/
theorem Obeys.keepsContext {α : Type} {n : Nat} {good : α → Prop} {x : Step α}
    (hx : Obeys .free n good x) :
  KeepsContext x
  := fun m => (hx m (Law.allows_ofErrors m)).change.context

namespace KeepsContext

/-- The machine that is left has the context of the one before. -/
theorem of_ok {α : Type} {x : Step α} (hx : KeepsContext x) {m m' : Machine} {a : α}
    (h : x m = .ok a m') :
  m.SameContext m'
  := by
  have hm := hx m
  rwa [final_of_ok h] at hm

theorem push (x : Item) :
  KeepsContext (push x)
  := Obeys.keepsContext (.push trivial)

/-- No opcode changes the context. -/
theorem execute (o : Opcode) :
  KeepsContext (execute o)
  := Obeys.keepsContext (.execute (fun _ => trivial) fun _ _ => trivial)

/-- No program changes the context. -/
theorem run (p : Program) (depth : Nat) :
  KeepsContext (p.run depth)
  := Obeys.keepsContext (.run (Law.admits_free p) depth)

/-- No script changes the context. -/
theorem runScript (script : Script) :
  KeepsContext (runScript script)
  := by
  obtain ⟨_, hscript⟩ := Obeys.runScript fun p (_ : script.program = .ok p) => Law.admits_free p
  exact hscript.keepsContext

end KeepsContext

end Step

end Bitcoin
