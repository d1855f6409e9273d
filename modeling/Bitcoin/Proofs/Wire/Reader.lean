import Bitcoin.Proofs.Bytes
import Bitcoin.Wire.Reader
import Mathlib.Tactic.Use

/-!
# What readers take

`Reader.Takes reader bytes a` says that a reader takes the value `a` from any place where
`bytes` stand, whatever follows them, and leaves what follows. Readers made from several
take the concatenation of what the parts take. A reader takes a value from at most one
prefix of a byte string, so that forms on the wire that are taken by one reader are
uniquely decodable (`Reader.Takes.unique`).

`Reader.TakesOnly reader form` says in turn that whatever a reader takes, it takes from
bytes of the given form.
-/

namespace Bitcoin.Reader

/-- The reader takes the value from these bytes. -/
def Takes {α : Type} (reader : Reader α) (bytes : Bytes) (a : α) : Prop :=
  ∀ position rest,
    reader ⟨position, bytes ++ rest⟩ = .ok a ⟨position + bytes.length, rest⟩

namespace Takes

variable {α β : Type} {reader : Reader α} {bytes bytes' : Bytes} {a a' : α}

/-- What is taken, and what is left, is determined by the byte string. -/
theorem unique (h : Takes reader bytes a) (h' : Takes reader bytes' a') {rest rest' : Bytes}
    (e : bytes ++ rest = bytes' ++ rest') :
  a = a' ∧ rest = rest'
  := by
  have hread := h 0 rest
  rw [e, h' 0 rest'] at hread
  obtain ⟨ha, hcursor⟩ := EStateM.Result.ok.inj hread
  exact ⟨ha.symm, (Cursor.mk.inj hcursor).2.symm⟩

theorem pure (a : α) :
  Takes (Pure.pure a) [] a
  := fun _ _ => rfl

/-- Readers in a row take one form after the other. -/
theorem bind {f : α → Reader β} {b : β} (h : Takes reader bytes a) (hf : Takes (f a) bytes' b) :
  Takes (reader >>= f) (bytes ++ bytes') b
  := by
  intro position rest
  change EStateM.bind reader f _ = _
  rw [List.append_assoc, EStateM.bind, h position]
  dsimp only
  rw [hf, List.length_append, Nat.add_assoc]

/-- A value may be changed after it is taken. -/
theorem map (h : Takes reader bytes a) (f : α → β) :
  Takes (reader >>= fun a => Pure.pure (f a)) bytes (f a)
  := by
  have hf : Takes (reader >>= fun a => Pure.pure (f a)) (bytes ++ []) (f a) := h.bind (pure (f a))
  rwa [List.append_nil] at hf

/-- What stands behind a form is left over. -/
theorem runOn (h : Takes reader bytes a) (rest : Bytes) :
  reader.runOn (bytes ++ rest) = .ok (a, rest)
  := by
  rw [Reader.runOn, Cursor.start, h]

/-- A reader that begins with a look at its place takes what it takes from every place. -/
theorem get_bind {f : Cursor → Reader α} (h : ∀ cursor, Takes (f cursor) bytes a) :
  Takes (get >>= f) bytes a
  := fun position rest => h ⟨position, bytes ++ rest⟩ position rest

end Takes

/-- Bytes of a fixed length are taken as they are. -/
theorem takes_takeFixed {n : Nat} (bytes : FixedBytes n) :
  Takes (takeFixed n) bytes.toList bytes
  := by
  obtain ⟨bytes, rfl⟩ := bytes
  intro position rest
  simp [takeFixed]

theorem takes_take (bytes : Bytes) :
  Takes (take bytes.length) bytes bytes
  := (takes_takeFixed ⟨bytes, rfl⟩).map FixedBytes.toList

/-- A number is taken from its bytes, if it has room in them. -/
theorem takes_natLE {width n : Nat} (h : n < 256 ^ width) :
  Takes (natLE width) (Bytes.ofNatLE width n) n
  := by
  have htake := takes_take (Bytes.ofNatLE width n)
  rw [Bytes.length_ofNatLE] at htake
  have hmap := htake.map Bytes.toNatLE
  rwa [Bytes.toNatLE_ofNatLE_of_lt h] at hmap

theorem takes_natBE {width n : Nat} (h : n < 256 ^ width) :
  Takes (natBE width) (Bytes.ofNatBE width n) n
  := by
  have htake := takes_take (Bytes.ofNatBE width n)
  rw [Bytes.length_ofNatBE] at htake
  have hmap := htake.map Bytes.toNatBE
  rwa [Bytes.toNatBE_ofNatBE_of_lt h] at hmap

theorem takes_u8 (byte : UInt8) :
  Takes u8 [byte] byte
  := by
  have h := (@takes_natLE 1 _ byte.toNat_lt).map UInt8.ofNat
  rw [UInt8.ofNat_toNat] at h
  have e : Bytes.ofNatLE 1 byte.toNat = [byte] := by simp [Bytes.ofNatLE]
  rwa [e] at h

theorem takes_u16 (word : UInt16) :
  Takes u16 (Bytes.ofNatLE 2 word.toNat) word
  := by
  have h := (@takes_natLE 2 _ word.toNat_lt).map UInt16.ofNat
  rwa [UInt16.ofNat_toNat] at h

theorem takes_u32 (word : UInt32) :
  Takes u32 (Bytes.ofNatLE 4 word.toNat) word
  := by
  have h := (@takes_natLE 4 _ word.toNat_lt).map UInt32.ofNat
  rwa [UInt32.ofNat_toNat] at h

theorem takes_u64 (word : UInt64) :
  Takes u64 (Bytes.ofNatLE 8 word.toNat) word
  := by
  have h := (@takes_natLE 8 _ word.toNat_lt).map UInt64.ofNat
  rwa [UInt64.ofNat_toNat] at h

/-- A list is taken value by value. -/
theorem takes_repeatAfter
    {α β : Type} {reader : Reader β} {encode : α → Bytes} {value : α → β} (xs : List α)
    (h : ∀ x ∈ xs, Takes reader (encode x) (value x)) (done : List β) :
  Takes (repeatAfter reader xs.length done) (xs.flatMap encode) (done.reverse ++ xs.map value)
  := by
  induction xs generalizing done with
  | nil =>
    rw [List.map_nil, List.append_nil]
    exact .pure _
  | cons x xs ih =>
    have hrest := ih (fun y hy => h y (List.mem_cons_of_mem x hy)) (value x :: done)
    have e : (value x :: done).reverse ++ xs.map value = done.reverse ++ (x :: xs).map value := by
      simp
    rw [e] at hrest
    apply (h x List.mem_cons_self).bind hrest

/-- Several things are taken one after the other. -/
theorem takes_many
    {α β : Type} {reader : Reader β} {encode : α → Bytes} {value : α → β} (xs : List α)
    (h : ∀ x ∈ xs, Takes reader (encode x) (value x)) :
  Takes (many xs.length reader) (xs.flatMap encode) (xs.map value)
  := takes_repeatAfter xs h []

/-- Whatever the reader takes, it takes from bytes that have this form. -/
def TakesOnly {α : Type} (reader : Reader α) (form : Bytes → α → Prop) : Prop :=
  ∀ cursor a cursor', reader cursor = .ok a cursor' →
    ∃ bytes, cursor.rest = bytes ++ cursor'.rest ∧ form bytes a

namespace TakesOnly

variable {α β : Type} {reader : Reader α} {form form' : Bytes → α → Prop}

theorem mono (h : TakesOnly reader form) (himp : ∀ bytes a, form bytes a → form' bytes a) :
  TakesOnly reader form'
  := by
  intro cursor a cursor' hread
  obtain ⟨bytes, hbytes, hform⟩ := h cursor a cursor' hread
  exact ⟨bytes, hbytes, himp bytes a hform⟩

theorem pure {a : α} (h : form [] a) :
  TakesOnly (Pure.pure a) form
  := by
  intro cursor b cursor' hread
  cases hread
  exact ⟨[], rfl, h⟩

theorem throw (e : Error) :
  TakesOnly (MonadExcept.throw e) form
  := by
  rintro cursor a cursor' ⟨⟩

/-- What follows a reader has its form behind the bytes that the reader has taken. -/
theorem bind {f : α → Reader β} {target : Bytes → β → Prop} (h : TakesOnly reader form)
    (hf : ∀ first a, form first a → TakesOnly (f a) fun second b => target (first ++ second) b) :
  TakesOnly (reader >>= f) target
  := by
  intro cursor b cursor' hread
  change EStateM.bind reader f cursor = _ at hread
  rw [EStateM.bind] at hread
  cases hfirst : reader cursor with
  | error e place =>
    rw [hfirst] at hread
    cases hread
  | ok a place =>
    rw [hfirst] at hread
    obtain ⟨first, e, hform⟩ := h cursor a place hfirst
    obtain ⟨second, e', htarget⟩ := hf first a hform place b cursor' hread
    refine ⟨first ++ second, ?_, htarget⟩
    rw [e, e', List.append_assoc]

theorem map (h : TakesOnly reader form) (f : α → β) {target : Bytes → β → Prop}
    (himp : ∀ bytes a, form bytes a → target bytes (f a)) :
  TakesOnly (reader >>= fun a => Pure.pure (f a)) target
  := by
  apply h.bind
  intro bytes a hform
  apply pure
  rw [List.append_nil]
  apply himp bytes a hform

theorem get_bind {f : Cursor → Reader α} (h : ∀ cursor, TakesOnly (f cursor) form) :
  TakesOnly (get >>= f) form
  := fun cursor => h cursor cursor

theorem runOn (h : TakesOnly reader form) {bytes rest : Bytes} {a : α}
    (hrun : reader.runOn bytes = .ok (a, rest)) :
  ∃ front, bytes = front ++ rest ∧ form front a
  := by
  rw [Reader.runOn] at hrun
  split at hrun
  · next cursor hread =>
    cases hrun
    apply h _ _ _ hread
  · cases hrun

end TakesOnly

/-- Nothing but its bytes is taken for a byte string of a fixed length. -/
theorem takesOnly_takeFixed (n : Nat) :
  TakesOnly (takeFixed n) fun bytes a => bytes = a.toList
  := by
  intro cursor a cursor' hread
  rw [takeFixed] at hread
  split at hread
  · cases hread
    exact ⟨_, (List.take_append_drop n cursor.rest).symm, rfl⟩
  · cases hread

theorem takesOnly_take (n : Nat) :
  TakesOnly (take n) fun bytes a => bytes = a ∧ a.length = n
  := by
  apply (takesOnly_takeFixed n).map FixedBytes.toList
  rintro bytes a rfl
  exact ⟨rfl, a.length_eq⟩

/-- Nothing but its bytes is taken for a number. -/
theorem takesOnly_natLE (width : Nat) :
  TakesOnly (natLE width) fun bytes n => n < 256 ^ width ∧ bytes = Bytes.ofNatLE width n
  := by
  apply (takesOnly_take width).map Bytes.toNatLE
  rintro bytes a ⟨rfl, rfl⟩
  exact ⟨Bytes.toNatLE_lt bytes, (Bytes.ofNatLE_toNatLE bytes).symm⟩

theorem takesOnly_natBE (width : Nat) :
  TakesOnly (natBE width) fun bytes n => n < 256 ^ width ∧ bytes = Bytes.ofNatBE width n
  := by
  apply (takesOnly_take width).map Bytes.toNatBE
  rintro bytes a ⟨rfl, rfl⟩
  exact ⟨Bytes.toNatBE_lt bytes, (Bytes.ofNatBE_toNatBE bytes).symm⟩

theorem takesOnly_u8 :
  TakesOnly u8 fun bytes byte => bytes = [byte]
  := by
  apply (takesOnly_natLE 1).map UInt8.ofNat
  rintro bytes n ⟨_, rfl⟩
  rfl

theorem takesOnly_u16 :
  TakesOnly u16 fun bytes word => bytes = Bytes.ofNatLE 2 word.toNat
  := by
  apply (takesOnly_natLE 2).map UInt16.ofNat
  rintro bytes n ⟨hn, rfl⟩
  rw [UInt16.toNat_ofNat_of_lt' hn]

theorem takesOnly_u32 :
  TakesOnly u32 fun bytes word => bytes = Bytes.ofNatLE 4 word.toNat
  := by
  apply (takesOnly_natLE 4).map UInt32.ofNat
  rintro bytes n ⟨hn, rfl⟩
  rw [UInt32.toNat_ofNat_of_lt' hn]

theorem takesOnly_u64 :
  TakesOnly u64 fun bytes word => bytes = Bytes.ofNatLE 8 word.toNat
  := by
  apply (takesOnly_natLE 8).map UInt64.ofNat
  rintro bytes n ⟨hn, rfl⟩
  rw [UInt64.toNat_ofNat_of_lt' hn]

/-- A list is taken value by value, from bytes that have any form which grows by that of a value. -/
theorem takesOnly_repeatAfter
    {α : Type} {reader : Reader α} {form : Bytes → α → Prop} {forms : Bytes → List α → Prop}
    (h : TakesOnly reader form) (hnil : forms [] [])
    (hcons : ∀ bytes x rest xs, form bytes x → forms rest xs → forms (bytes ++ rest) (x :: xs))
    (count : Nat) (done : List α) :
  TakesOnly (repeatAfter reader count done) fun bytes xs =>
    ∃ more, xs = done.reverse ++ more ∧ more.length = count ∧ forms bytes more
  := by
  induction count generalizing done with
  | zero =>
    apply TakesOnly.pure
    exact ⟨[], (List.append_nil _).symm, rfl, hnil⟩
  | succ count ih =>
    apply h.bind
    intro first x hx
    apply (ih (x :: done)).mono
    rintro rest _ ⟨more, rfl, rfl, hmore⟩
    use x :: more
    refine ⟨?_, rfl, hcons first x rest more hx hmore⟩
    rw [List.reverse_cons, List.append_assoc, List.singleton_append]

/-- Several things are taken from nothing but their forms in a row. -/
theorem takesOnly_many
    {α : Type} {reader : Reader α} {form : Bytes → α → Prop} {forms : Bytes → List α → Prop}
    (h : TakesOnly reader form) (hnil : forms [] [])
    (hcons : ∀ bytes x rest xs, form bytes x → forms rest xs → forms (bytes ++ rest) (x :: xs))
    (count : Nat) :
  TakesOnly (many count reader) fun bytes xs => xs.length = count ∧ forms bytes xs
  := by
  apply (takesOnly_repeatAfter h hnil hcons count []).mono
  rintro bytes _ ⟨xs, rfl, hxs⟩
  apply hxs

/-- From the bytes of its values a list is taken. -/
theorem takesOnly_many_of_encode
    {α : Type} {reader : Reader α} {encode : α → Bytes} {good : α → Prop}
    (h : TakesOnly reader fun bytes a => bytes = encode a ∧ good a) (count : Nat) :
  TakesOnly (many count reader) fun bytes xs =>
    xs.length = count ∧ bytes = xs.flatMap encode ∧ ∀ x ∈ xs, good x
  := by
  apply takesOnly_many h ⟨rfl, List.forall_mem_nil _⟩
  rintro _ x _ xs ⟨rfl, hx⟩ ⟨rfl, hxs⟩
  exact ⟨rfl, List.forall_mem_cons.mpr ⟨hx, hxs⟩⟩

end Bitcoin.Reader
