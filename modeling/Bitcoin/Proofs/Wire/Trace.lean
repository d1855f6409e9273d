import Bitcoin.Proofs.Wire.CompactSize
import Mathlib.Data.List.Count

/-!
# Traces of what readers begin

A tracing reader does what a reader does (`Tracing.Erases`), and keeps a list of the parts whose
reading it has begun, also where that has failed. How many parts of a kind are begun is bounded by a
potential: the bytes that are left, and the price of each part that was begun. A part that takes as
many bytes as its price does not raise the potential. One that fails may raise it by the price, but
nothing is read after it (`Amortized`), so that this happens once (`Tracing.mul_count_begun_le`).
-/

namespace Bitcoin

/-- Whether the state at the end of an operation has at most a potential, or exceeds it by at
most an overdraft where the operation has failed. -/
def Within {σ α : Type} (potential : σ → Nat) (overdraft limit : Nat) :
    EStateM.Result Error σ α → Prop
  | .ok _ s => potential s ≤ limit
  | .error _ s => potential s ≤ limit + overdraft

/-- A price that is paid with little may be paid with more. -/
theorem Within.mono {σ α : Type} {potential : σ → Nat} {overdraft limit limit' : Nat}
    {result : EStateM.Result Error σ α} (h : Within potential overdraft limit result)
    (hle : limit ≤ limit') :
  Within potential overdraft limit' result
  := by
  cases result with
  | ok a s => exact Nat.le_trans h hle
  | error e s => exact Nat.le_trans h (Nat.add_le_add_right hle overdraft)

/-- Whether an operation does not raise a potential of the state, and where it fails raises it by at
most an overdraft. -/
def Amortized {σ α : Type} (potential : σ → Nat) (overdraft : Nat)
    (operation : EStateM Error σ α) : Prop :=
  ∀ s, Within potential overdraft (potential s) (operation s)

namespace Amortized

variable {σ α β : Type} {potential : σ → Nat} {overdraft : Nat} {operation : EStateM Error σ α}

theorem pure (a : α) :
  Amortized potential overdraft (Pure.pure a)
  := fun s => Nat.le_refl (potential s)

/-- Nothing is done after a failure, so that there is one overdraft at most. -/
theorem bind {f : α → EStateM Error σ β} (h : Amortized potential overdraft operation)
    (hf : ∀ a, Amortized potential overdraft (f a)) :
  Amortized potential overdraft (operation >>= f)
  := by
  intro s
  have hfirst := h s
  change Within _ _ _ (EStateM.bind operation f s)
  rw [EStateM.bind]
  cases hrun : operation s with
  | error e t =>
    rw [hrun] at hfirst
    exact hfirst
  | ok a t =>
    rw [hrun] at hfirst
    exact (hf a t).mono hfirst

theorem map (h : Amortized potential overdraft operation) (f : α → β) :
  Amortized potential overdraft (operation >>= fun a => Pure.pure (f a))
  := h.bind fun a => pure (f a)

theorem ite {c : Prop} [Decidable c] {operation' : EStateM Error σ α}
    (h : Amortized potential overdraft operation) (h' : Amortized potential overdraft operation') :
  Amortized potential overdraft (if c then operation else operation')
  := by
  split
  · exact h
  · exact h'

end Amortized

namespace Reader

variable {α : Type}

/-- Whether a reader gives no bytes back, not even where it fails. -/
abbrev Consumes (reader : Reader α) : Prop :=
  Amortized (fun cursor : Cursor => cursor.rest.length) 0 reader

/-- Whether a reader moreover takes at least so many bytes unless it fails. -/
structure Spends (price : Nat) (reader : Reader α) : Prop where
  consumes : Consumes reader
  price_le : ∀ {cursor a cursor'}, reader cursor = .ok a cursor' →
    cursor'.rest.length + price ≤ cursor.rest.length

/-- Each byte that is taken is paid for. -/
theorem consumes_takeFixed (n : Nat) :
  Consumes (takeFixed n)
  := by
  intro cursor
  rw [takeFixed]
  dsimp only
  split
  · apply Nat.le_trans (Nat.le_of_eq List.length_drop) (Nat.sub_le _ _)
  · apply Nat.le_refl

theorem consumes_take (n : Nat) :
  Consumes (take n)
  := (consumes_takeFixed n).map _

theorem consumes_natLE (width : Nat) :
  Consumes (natLE width)
  := (consumes_take width).map _

theorem consumes_u8 :
  Consumes u8
  := (consumes_natLE 1).map _

theorem consumes_u32 :
  Consumes u32
  := (consumes_natLE 4).map _

theorem consumes_u64 :
  Consumes u64
  := (consumes_natLE 8).map _

end Reader

namespace CompactSize

open Reader

theorem consumes_read :
  Consumes read
  := consumes_u8.bind fun _ =>
    .ite (consumes_natLE 2) (.ite (consumes_natLE 4) (.ite (consumes_natLE 8) (.pure _)))

theorem consumes_readBytes :
  Consumes readBytes
  := consumes_read.bind consumes_take

end CompactSize

/-- A place, and the kinds of the parts whose reading was begun on the way to it, the last one
first. -/
structure Trace (κ : Type) where
  cursor : Cursor
  begun : List κ

namespace Trace

variable {κ α : Type}

/-- The trace at the start of a byte string. -/
def start (bytes : Bytes) : Trace κ :=
  ⟨.start bytes, []⟩

/-- The bytes that are left, and the price of the parts of a kind that were begun. -/
def potential [DecidableEq κ] (kind : κ) (price : Nat) (trace : Trace κ) : Nat :=
  price * trace.begun.count kind + trace.cursor.rest.length

/-- A result without its trace. -/
def forget : EStateM.Result Error (Trace κ) α → EStateM.Result Error Cursor α
  | .ok a trace => .ok a trace.cursor
  | .error e trace => .error e trace.cursor

/-- The trace of a result. -/
def ofResult : EStateM.Result Error (Trace κ) α → Trace κ
  | .ok _ trace => trace
  | .error _ trace => trace

end Trace

/-- A reader that keeps a trace. -/
abbrev Tracing (κ : Type) := EStateM Error (Trace κ)

namespace Tracing

open Trace

variable {κ α β : Type}

/-- A reader that leaves no trace. -/
def plain (reader : Reader α) : Tracing κ α := fun trace =>
  match reader trace.cursor with
  | .ok a cursor => .ok a { trace with cursor }
  | .error e cursor => .error e { trace with cursor }

/-- A reader of a part. -/
def part (kind : κ) (reader : Reader α) : Tracing κ α := fun trace =>
  plain reader { trace with begun := kind :: trace.begun }

/-- Reads `count` values one after the other, behind those already read, which are given
backwards. -/
def repeatAfter (tracing : Tracing κ α) : (count : Nat) → List α → Tracing κ (List α)
  | 0, done => return done.reverse
  | count + 1, done => do
    let value ← tracing
    repeatAfter tracing count (value :: done)

/-- Reads `count` values one after the other. -/
def many (count : Nat) (tracing : Tracing κ α) : Tracing κ (List α) :=
  repeatAfter tracing count []

/-- The kinds of the parts whose reading is begun in a byte string, the last one first. -/
def begun (tracing : Tracing κ α) (bytes : Bytes) : List κ :=
  (ofResult (tracing (.start bytes))).begun

/-! ### A tracing reader does what the reader does -/

/-- Whether a tracing reader does what a reader does, and keeps a trace besides. -/
def Erases (tracing : Tracing κ α) (reader : Reader α) : Prop :=
  ∀ trace, forget (tracing trace) = reader trace.cursor

theorem erases_plain (reader : Reader α) :
  Erases (plain reader : Tracing κ α) reader
  := by
  intro trace
  rw [plain]
  cases reader trace.cursor with
  | ok a cursor => rfl
  | error e cursor => rfl

/-- Beginning a part is noted, and changes nothing else. -/
theorem erases_part (kind : κ) (reader : Reader α) :
  Erases (part kind reader) reader
  := fun trace => erases_plain reader { trace with begun := kind :: trace.begun }

theorem erases_pure (a : α) :
  Erases (pure a : Tracing κ α) (pure a)
  := fun _ => rfl

/-- Traces of readers in a row follow each other. -/
theorem Erases.bind {tracing : Tracing κ α} {reader : Reader α} {f : α → Tracing κ β}
    {g : α → Reader β} (h : Erases tracing reader) (hf : ∀ a, Erases (f a) (g a)) :
  Erases (tracing >>= f) (reader >>= g)
  := by
  intro trace
  change forget (EStateM.bind tracing f trace) = EStateM.bind reader g trace.cursor
  rw [EStateM.bind, EStateM.bind, ← h trace]
  cases tracing trace with
  | ok a trace => exact hf a trace
  | error e trace => rfl

theorem Erases.repeatAfter {tracing : Tracing κ α} {reader : Reader α} (h : Erases tracing reader)
    (count : Nat) (done : List α) :
  Erases (tracing.repeatAfter count done) (reader.repeatAfter count done)
  := by
  induction count generalizing done with
  | zero => apply erases_pure
  | succ count ih => exact h.bind fun value => ih (value :: done)

theorem Erases.many {tracing : Tracing κ α} {reader : Reader α} (h : Erases tracing reader)
    (count : Nat) :
  Erases (tracing.many count) (reader.many count)
  := h.repeatAfter count []

/-! ### How many parts are begun -/

section Amortized

variable [DecidableEq κ] {kind kind' : κ} {price : Nat} {reader : Reader α}

/-- Bytes that are taken without beginning a part cost nothing. -/
theorem amortized_plain (h : reader.Consumes) :
  Amortized (potential kind price) price (plain reader)
  := by
  intro trace
  have hrest := h trace.cursor
  rw [plain]
  cases hread : reader trace.cursor with
  | ok a cursor =>
    rw [hread] at hrest
    exact Nat.add_le_add_left hrest _
  | error e cursor =>
    rw [hread] at hrest
    exact Nat.le_add_right_of_le (Nat.add_le_add_left hrest _)

/-- A part of another kind does not count. -/
theorem amortized_part_of_ne (hne : kind' ≠ kind) (h : reader.Consumes) :
  Amortized (potential kind price) price (part kind' reader)
  := by
  intro trace
  have hcount : (kind' :: trace.begun).count kind = trace.begun.count kind :=
    List.count_cons_of_ne hne
  have hplain : Within (potential kind price) price _ (part kind' reader trace) :=
    amortized_plain h { trace with begun := kind' :: trace.begun }
  rw [potential, hcount] at hplain
  exact hplain

/-- A part is paid for with the bytes that it is read from, unless it fails. -/
theorem amortized_part (h : reader.Spends price) :
  Amortized (potential kind price) price (part kind reader)
  := by
  intro trace
  have hcount : (kind :: trace.begun).count kind = trace.begun.count kind + 1 :=
    List.count_cons_self
  have hrest := h.consumes trace.cursor
  rw [part, plain]
  dsimp only
  cases hread : reader trace.cursor with
  | ok a cursor =>
    have hprice := h.price_le hread
    simp only [Within, potential, hcount, Nat.mul_succ]
    omega
  | error e cursor =>
    rw [hread] at hrest
    simp only [Within, potential, hcount, Nat.mul_succ] at hrest ⊢
    omega

/-- Several parts cost what each of them does. -/
theorem amortized_many {tracing : Tracing κ α}
    (h : Amortized (potential kind price) price tracing) (count : Nat) :
  Amortized (potential kind price) price (tracing.many count)
  := by
  have hrepeat : ∀ count done,
      Amortized (potential kind price) price (tracing.repeatAfter count done) := by
    intro count
    induction count with
    | zero => exact fun done => .pure _
    | succ count ih => exact fun done => h.bind fun value => ih (value :: done)
  exact hrepeat count []

/-- All parts of a kind but for one are paid for with the bytes that there are. -/
theorem mul_count_begun_le {tracing : Tracing κ α}
    (h : Amortized (potential kind price) price tracing) (bytes : Bytes) :
  price * (tracing.begun bytes).count kind ≤ bytes.length + price
  := by
  have hstart : potential kind price (Trace.start bytes) = bytes.length := by
    rw [potential, Trace.start, List.count_nil, Nat.mul_zero, Nat.zero_add, Cursor.start]
  have hend := h (.start bytes)
  rw [hstart] at hend
  rw [begun]
  cases hread : tracing (.start bytes) with
  | ok a trace =>
    rw [hread] at hend
    exact Nat.le_trans (Nat.le_add_right _ _) (Nat.le_add_right_of_le hend)
  | error e trace =>
    rw [hread] at hend
    exact Nat.le_trans (Nat.le_add_right _ _) hend

end Amortized

end Tracing

end Bitcoin
