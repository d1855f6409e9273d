import Bitcoin.Proofs.Wire.CompactSize

/-!
# Data that ends too early

A reader is steady (`Reader.Steady`) if it does not look beyond what it takes, and fails only
where the data ends. The bytes from which a steady reader takes a value are delimited
(`Reader.Delimited`): whatever follows them is left, and if they are cut short anywhere, the
data ends too early.
-/

namespace Bitcoin

namespace Reader

/-- Whether decoding gives a value from these bytes and leaves what follows them, and finds that
the data ends too early if only a part of the bytes is there. -/
structure Delimited {α : Type} (decode : Bytes → Except Error (α × Bytes)) (bytes : Bytes) (a : α) :
    Prop where
  whole : ∀ rest, decode (bytes ++ rest) = .ok (a, rest)
  cut : ∀ front, front <+: bytes → front ≠ bytes →
    ∃ wanted position left, decode front = .error (.decoding (.endOfData wanted position left))

/-- Whether a reader takes the same when more bytes follow, and fails only where the data
ends. -/
structure Steady {α : Type} (reader : Reader α) : Prop where
  append : ∀ {position bytes a cursor}, reader ⟨position, bytes⟩ = .ok a cursor →
    ∀ more, reader ⟨position, bytes ++ more⟩ = .ok a ⟨cursor.position, cursor.rest ++ more⟩
  error : ∀ {cursor e cursor'}, reader cursor = .error e cursor' →
    ∃ wanted position left, e = .decoding (.endOfData wanted position left)

variable {α β : Type}

/-- What a steady reader takes is delimited. A part of the bytes from which it took the value as
well would leave nothing for the other part. -/
theorem Takes.delimited {reader : Reader α} {bytes : Bytes} {a : α} (h : Takes reader bytes a)
    (hsteady : Steady reader) :
  Delimited reader.runOn bytes a
  where
  whole := h.runOn
  cut := by
    rintro front ⟨back, rfl⟩ hne
    rw [Reader.runOn]
    cases hread : reader (.start front) with
    | error e cursor =>
      obtain ⟨wanted, position, left, rfl⟩ := hsteady.error hread
      exact ⟨wanted, position, left, rfl⟩
    | ok b cursor =>
      have hwhole := h 0 []
      rw [List.append_nil, hsteady.append hread back] at hwhole
      have hback : cursor.rest ++ back = [] :=
        (Cursor.mk.inj (EStateM.Result.ok.inj hwhole).2).2
      rw [(List.append_eq_nil_iff.mp hback).2, List.append_nil] at hne
      apply absurd rfl hne

namespace Steady

theorem pure (a : α) :
  Steady (Pure.pure a)
  where
  append := by
    rintro position bytes _ _ ⟨⟩ more
    rfl
  error := by rintro _ _ _ ⟨⟩

/-- Readers in a row are steady if both are. -/
theorem bind {reader : Reader α} {f : α → Reader β} (h : Steady reader)
    (hf : ∀ a, Steady (f a)) :
  Steady (reader >>= f)
  where
  append := by
    intro position bytes b cursor hread more
    change EStateM.bind reader f _ = _ at hread ⊢
    rw [EStateM.bind] at hread ⊢
    cases hfirst : reader ⟨position, bytes⟩ with
    | error e place =>
      rw [hfirst] at hread
      cases hread
    | ok a place =>
      rw [hfirst] at hread
      rw [h.append hfirst more]
      apply (hf a).append hread
  error := by
    intro cursor e cursor' hread
    change EStateM.bind reader f _ = _ at hread
    rw [EStateM.bind] at hread
    cases hfirst : reader cursor with
    | error e' place =>
      rw [hfirst] at hread
      cases hread
      apply h.error hfirst
    | ok a place =>
      rw [hfirst] at hread
      apply (hf a).error hread

theorem map {reader : Reader α} (h : Steady reader) (f : α → β) :
  Steady (reader >>= fun a => Pure.pure (f a))
  := h.bind fun a => pure (f a)

theorem ite {c : Prop} [Decidable c] {reader reader' : Reader α} (h : Steady reader)
    (h' : Steady reader') :
  Steady (if c then reader else reader')
  := by
  split
  · exact h
  · exact h'

end Steady

/-- Taking bytes does not look behind them, and fails only where they end. -/
theorem steady_takeFixed (n : Nat) :
  Steady (takeFixed n)
  where
  append := by
    intro position bytes a cursor hread more
    rw [takeFixed] at hread
    dsimp only at hread
    split at hread
    · next hlength =>
      cases hread
      have hle : n ≤ bytes.length := by
        rw [List.length_take] at hlength
        omega
      have htake : (bytes ++ more).take n = bytes.take n := List.take_append_of_le_length hle
      simp [takeFixed, htake, hlength, List.drop_append_of_le_length hle]
    · cases hread
  error := by
    intro cursor e cursor' hread
    rw [takeFixed] at hread
    split at hread
    · cases hread
    · cases hread
      exact ⟨_, _, _, rfl⟩

theorem steady_take (n : Nat) :
  Steady (take n)
  := (steady_takeFixed n).map _

theorem steady_natLE (width : Nat) :
  Steady (natLE width)
  := (steady_take width).map _

theorem steady_u8 :
  Steady u8
  := (steady_natLE 1).map _

theorem steady_u32 :
  Steady u32
  := (steady_natLE 4).map _

theorem steady_u64 :
  Steady u64
  := (steady_natLE 8).map _

theorem steady_repeatAfter {reader : Reader α} (h : Steady reader) (count : Nat) (done : List α) :
  Steady (repeatAfter reader count done)
  := by
  induction count generalizing done with
  | zero => exact .pure _
  | succ count ih => exact h.bind fun value => ih (value :: done)

/-- Reading several things is steady if reading one of them is. -/
theorem steady_many {reader : Reader α} (h : Steady reader) (count : Nat) :
  Steady (many count reader)
  := steady_repeatAfter h count []

end Reader

namespace CompactSize

open Reader

/-- The first byte of a number tells how many more there are. -/
theorem steady_read :
  Steady read
  := steady_u8.bind fun _ =>
    .ite (steady_natLE 2) (.ite (steady_natLE 4) (.ite (steady_natLE 8) (.pure _)))

theorem steady_readBytes :
  Steady readBytes
  := steady_read.bind steady_take

end CompactSize

end Bitcoin
