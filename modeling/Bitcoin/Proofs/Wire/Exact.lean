import Bitcoin.Proofs.Wire.CompactSize

/-!
# Exactly what readers take, and exactly where they fail

A reader passes from a place to a later one over the bytes between them (`Cursor.Passes`). When
it takes a value, these bytes are a form of the value, and whatever form of a value stands at a
place, the value is taken from it (`Reader.TakesExactly`). When it fails, it has passed over the
bytes of the parts before the failing one, and wants more bytes than are left; and wherever so few
are left it does fail (`Reader.FailsExactly`).
-/

namespace Bitcoin

/-- Whether these bytes stand between a place and a later one. -/
structure Cursor.Passes (cursor : Cursor) (bytes : Bytes) (cursor' : Cursor) : Prop where
  rest_eq : cursor.rest = bytes ++ cursor'.rest
  position_eq : cursor'.position = cursor.position + bytes.length

namespace Cursor.Passes

variable {a b c : Cursor} {bytes bytes' : Bytes}

theorem refl (a : Cursor) :
  a.Passes [] a
  := ⟨rfl, rfl⟩

/-- What is passed on two ways is passed on both. -/
theorem trans (h : a.Passes bytes b) (h' : b.Passes bytes' c) :
  a.Passes (bytes ++ bytes') c
  where
  rest_eq := by rw [h.rest_eq, h'.rest_eq, List.append_assoc]
  position_eq := by rw [h'.position_eq, h.position_eq, List.length_append, Nat.add_assoc]

/-- Between two places there is one behind any part of the bytes. -/
theorem split (h : a.Passes (bytes ++ bytes') c) :
  ∃ b, a.Passes bytes b ∧ b.Passes bytes' c
  := by
  use ⟨a.position + bytes.length, bytes' ++ c.rest⟩
  constructor
  · exact ⟨by rw [h.rest_eq, List.append_assoc], rfl⟩
  · exact ⟨rfl, by rw [h.position_eq, List.length_append, Nat.add_assoc]⟩

theorem eq_of_nil (h : a.Passes [] b) :
  b = a
  := by
  obtain ⟨position, rest⟩ := a
  obtain ⟨hrest, hposition⟩ := h
  cases b
  cases hrest
  cases hposition
  rfl

end Cursor.Passes

namespace Reader

variable {α β : Type}

/-- Whether a reader takes exactly the values of which a form stands at its place, and passes over
the form. -/
def TakesExactly (reader : Reader α) (form : Bytes → α → Prop) : Prop :=
  ∀ cursor a cursor', reader cursor = .ok a cursor' ↔
    ∃ bytes, form bytes a ∧ cursor.Passes bytes cursor'

/-- Whether a reader fails exactly behind bytes where it stops for more bytes than are left. -/
def FailsExactly (reader : Reader α) (stops : Bytes → Nat → Prop) : Prop :=
  ∀ cursor e cursor', reader cursor = .error e cursor' ↔
    ∃ bytes wanted, stops bytes wanted ∧ cursor.Passes bytes cursor'
      ∧ cursor'.rest.length < wanted
      ∧ e = .decoding (.endOfData wanted cursor'.position cursor'.rest.length)

/-- A reader is exact if it takes the forms and nothing else. -/
theorem takesExactly_of_takes {reader : Reader α} {form : Bytes → α → Prop}
    (h : ∀ bytes a, form bytes a → Takes reader bytes a) (honly : TakesOnly reader form) :
  TakesExactly reader form
  := by
  intro cursor a cursor'
  constructor
  · intro hread
    obtain ⟨bytes, hrest, hform⟩ := honly cursor a cursor' hread
    -- What is taken from the form wherever it stands is what was taken here, so the places agree.
    have htakes := h bytes a hform cursor.position cursor'.rest
    rw [← hrest, hread] at htakes
    exact ⟨bytes, hform, hrest, congrArg Cursor.position (EStateM.Result.ok.inj htakes).2⟩
  · rintro ⟨bytes, hform, hrest, hposition⟩
    have htakes := h bytes a hform cursor.position cursor'.rest
    rw [← hrest, ← hposition] at htakes
    exact htakes

/-- A value that has one form is taken exactly from it. -/
theorem takesExactly_of_encode {reader : Reader α} {encode : α → Bytes}
    (h : ∀ a, Takes reader (encode a) a)
    (honly : TakesOnly reader fun bytes a => bytes = encode a) :
  TakesExactly reader fun bytes a => bytes = encode a
  := by
  apply takesExactly_of_takes _ honly
  rintro _ a rfl
  apply h

/-- Bytes of a fixed length are taken as they are. -/
theorem takesExactly_takeFixed (n : Nat) :
  TakesExactly (takeFixed n) fun bytes a => bytes = a.toList
  := takesExactly_of_encode takes_takeFixed (takesOnly_takeFixed n)

theorem takesExactly_take (n : Nat) :
  TakesExactly (take n) fun bytes a => bytes = a ∧ a.length = n
  := by
  apply takesExactly_of_takes _ (takesOnly_take n)
  rintro _ a ⟨rfl, rfl⟩
  apply takes_take

theorem takesExactly_u8 :
  TakesExactly u8 fun bytes byte => bytes = [byte]
  := takesExactly_of_encode takes_u8 takesOnly_u8

theorem takesExactly_u16 :
  TakesExactly u16 fun bytes word => bytes = Bytes.ofNatLE 2 word.toNat
  := takesExactly_of_encode takes_u16 takesOnly_u16

theorem takesExactly_u32 :
  TakesExactly u32 fun bytes word => bytes = Bytes.ofNatLE 4 word.toNat
  := takesExactly_of_encode takes_u32 takesOnly_u32

theorem takesExactly_u64 :
  TakesExactly u64 fun bytes word => bytes = Bytes.ofNatLE 8 word.toNat
  := takesExactly_of_encode takes_u64 takesOnly_u64

/-! ### Failures -/

/-- Readers in a row fail with the first one or with the second one. -/
theorem bind_eq_error_iff {reader : Reader α} {f : α → Reader β} {cursor cursor' : Cursor}
    {e : Error} :
  (reader >>= f) cursor = .error e cursor'
    ↔ reader cursor = .error e cursor'
      ∨ ∃ a place, reader cursor = .ok a place ∧ f a place = .error e cursor'
  := by
  change EStateM.bind reader f cursor = _ ↔ _
  rw [EStateM.bind]
  cases reader cursor with
  | ok a place => simp
  | error e' place => simp

namespace FailsExactly

variable {reader : Reader α} {stops stops' : Bytes → Nat → Prop}

theorem congr (h : FailsExactly reader stops) (himp : ∀ bytes wanted,
    stops bytes wanted ↔ stops' bytes wanted) :
  FailsExactly reader stops'
  := by
  have e : stops = stops' := funext₂ fun bytes wanted => propext (himp bytes wanted)
  rwa [e] at h

theorem pure (a : α) :
  FailsExactly (Pure.pure a) fun _ _ => False
  := by
  intro cursor e cursor'
  constructor
  · rintro ⟨⟩
  · rintro ⟨_, _, ⟨⟩, _⟩

/-- A reader made of two stops where the first one does, or behind a form of what that takes where
the second one does. -/
theorem bind {f : α → Reader β} {form : Bytes → α → Prop} {next : α → Bytes → Nat → Prop}
    (htakes : TakesExactly reader form) (h : FailsExactly reader stops)
    (hf : ∀ a, FailsExactly (f a) (next a)) :
  FailsExactly (reader >>= f) fun bytes wanted => stops bytes wanted
    ∨ ∃ first a second, form first a ∧ next a second wanted ∧ bytes = first ++ second
  := by
  intro cursor e cursor'
  rw [bind_eq_error_iff, h cursor e cursor']
  constructor
  · rintro (⟨bytes, wanted, hstops, hend⟩ | ⟨a, place, hread, hnext⟩)
    · exact ⟨bytes, wanted, .inl hstops, hend⟩
    · obtain ⟨first, hform, hfirst⟩ := (htakes cursor a place).mp hread
      obtain ⟨second, wanted, hstops, hsecond, hend⟩ := (hf a place e cursor').mp hnext
      exact ⟨first ++ second, wanted, .inr ⟨first, a, second, hform, hstops, rfl⟩,
        hfirst.trans hsecond, hend⟩
  · rintro ⟨bytes, wanted, hstops | ⟨first, a, second, hform, hstops, rfl⟩, hpasses, hend⟩
    · exact .inl ⟨bytes, wanted, hstops, hpasses, hend⟩
    · obtain ⟨place, hfirst, hsecond⟩ := hpasses.split
      right
      use a, place
      constructor
      · exact (htakes cursor a place).mpr ⟨first, hform, hfirst⟩
      · exact (hf a place e cursor').mpr ⟨second, wanted, hstops, hsecond, hend⟩

/-- To change a value after it is taken does not fail. -/
theorem map (h : FailsExactly reader stops) (f : α → β) :
  FailsExactly (reader >>= fun a => Pure.pure (f a)) stops
  := by
  intro cursor e cursor'
  rw [bind_eq_error_iff, ← h cursor e cursor']
  constructor
  · rintro (hread | ⟨a, place, _, ⟨⟩⟩)
    exact hread
  · exact .inl

end FailsExactly

/-- A reader of a fixed width stops before its bytes, and nowhere among them. -/
def Whole (width : Nat) (bytes : Bytes) (wanted : Nat) : Prop :=
  bytes = [] ∧ wanted = width

/-- Taking bytes fails if there are too few of them. -/
theorem failsExactly_takeFixed (n : Nat) :
  FailsExactly (takeFixed n) (Whole n)
  := by
  intro cursor e cursor'
  have hlength : (cursor.rest.take n).length = n ↔ ¬ cursor.rest.length < n := by
    rw [List.length_take, min_eq_left_iff, Nat.not_lt]
  rw [takeFixed]
  split
  · next hn =>
    constructor
    · rintro ⟨⟩
    · rintro ⟨_, _, ⟨rfl, rfl⟩, hpasses, hlt, _⟩
      rw [hpasses.eq_of_nil] at hlt
      apply absurd hlt (hlength.mp hn)
  · next hn =>
    constructor
    · rintro ⟨⟩
      exact ⟨[], n, ⟨rfl, rfl⟩, .refl cursor, not_not.mp (mt hlength.mpr hn), rfl⟩
    · rintro ⟨_, _, ⟨rfl, rfl⟩, hpasses, _, rfl⟩
      rw [hpasses.eq_of_nil]

theorem failsExactly_take (n : Nat) :
  FailsExactly (take n) (Whole n)
  := (failsExactly_takeFixed n).map _

theorem failsExactly_natLE (width : Nat) :
  FailsExactly (natLE width) (Whole width)
  := (failsExactly_take width).map _

theorem failsExactly_u8 :
  FailsExactly u8 (Whole 1)
  := (failsExactly_natLE 1).map _

theorem failsExactly_u16 :
  FailsExactly u16 (Whole 2)
  := (failsExactly_natLE 2).map _

theorem failsExactly_u32 :
  FailsExactly u32 (Whole 4)
  := (failsExactly_natLE 4).map _

theorem failsExactly_u64 :
  FailsExactly u64 (Whole 8)
  := (failsExactly_natLE 8).map _

end Reader

namespace CompactSize

open Reader

/-- Where a number may be cut short, and how many bytes are then wanted: before its first byte, and
behind a mark. -/
inductive Cut : Bytes → Nat → Prop where
  | first : Cut [] 1
  | marked {mark : UInt8} {width : Nat} : Mark mark width → Cut [mark] width

/-- What is cut short is the front of a form. -/
theorem Cut.exists_form {bytes : Bytes} {wanted : Nat} (h : Cut bytes wanted) :
  ∃ form n, Form form n ∧ bytes <+: form
  := by
  cases h with
  | first => exact ⟨[0], 0, .byte (by decide), List.nil_prefix⟩
  | @marked mark _ hmark =>
    exact ⟨mark :: Bytes.ofNatLE wanted 0, 0, .marked hmark (Nat.pow_pos (by decide)),
      List.prefix_append [mark] _⟩

/-- Reading a number is exact. -/
theorem takesExactly_read :
  TakesExactly read Form
  := takesExactly_of_takes (fun _ _ => takes_of_form) takesOnly_form

theorem takesExactly_readBytes :
  TakesExactly readBytes fun bytes a => ∃ length, Form length a.length ∧ bytes = length ++ a
  := by
  apply takesExactly_of_takes
  · rintro _ a ⟨length, hlength, rfl⟩
    apply (takes_of_form hlength).bind (takes_take a)
  · apply takesOnly_form.bind
    intro length n hlength
    apply (takesOnly_take n).mono
    rintro _ a ⟨rfl, rfl⟩
    exact ⟨length, hlength, rfl⟩

/-- Behind the first byte of a number, only what a mark stands for may be missing. -/
theorem failsExactly_afterMark (mark : UInt8) :
  FailsExactly (afterMark mark) fun bytes wanted => bytes = [] ∧ Mark mark wanted
  := by
  rcases lt_or_mark mark with hlt | ⟨width, hmark⟩
  · rw [afterMark_of_lt hlt]
    apply (FailsExactly.pure _).congr
    intro bytes wanted
    constructor
    · rintro ⟨⟩
    · rintro ⟨_, hmark⟩
      apply hmark.not_lt hlt
  · rw [hmark.afterMark]
    apply (failsExactly_natLE width).congr
    intro bytes wanted
    constructor
    · rintro ⟨rfl, rfl⟩
      exact ⟨rfl, hmark⟩
    · rintro ⟨rfl, hwanted⟩
      exact ⟨rfl, hwanted.unique hmark⟩

/-- Reading a number fails exactly where it is cut short. -/
theorem failsExactly_read :
  FailsExactly read Cut
  := by
  apply (FailsExactly.bind takesExactly_u8 failsExactly_u8 failsExactly_afterMark).congr
  intro bytes wanted
  constructor
  · rintro (⟨rfl, rfl⟩ | ⟨_, mark, _, rfl, ⟨rfl, hmark⟩, rfl⟩)
    · exact .first
    · exact .marked hmark
  · rintro (_ | hmark)
    · exact .inl ⟨rfl, rfl⟩
    · exact .inr ⟨_, _, [], rfl, ⟨rfl, hmark⟩, rfl⟩

/-- A byte string behind its length may be missing where the length may, and behind the length. -/
theorem failsExactly_readBytes :
  FailsExactly readBytes fun bytes wanted => Cut bytes wanted ∨ Form bytes wanted
  := by
  apply (FailsExactly.bind takesExactly_read failsExactly_read failsExactly_take).congr
  intro bytes wanted
  constructor
  · rintro (hcut | ⟨length, n, _, hlength, ⟨rfl, rfl⟩, rfl⟩)
    · exact .inl hcut
    · rw [List.append_nil]
      exact .inr hlength
  · rintro (hcut | hlength)
    · exact .inl hcut
    · exact .inr ⟨bytes, wanted, [], hlength, ⟨rfl, rfl⟩, (List.append_nil bytes).symm⟩

end CompactSize

end Bitcoin
