import Bitcoin.Proofs.Wire.Exact

/-!
# Reading on after a failure

What can be read at a place is a `Request`. Requests are followed one after the other, whether or
not they are met: one that fails leaves a place as well, from which the next one goes on. Every
place that is reached so is one in the data (`Cursor.In`), and none is before an earlier one. What
stands between two places is a form of the value that was taken, or, where the data end too early,
at most the length of what was wanted (`Request.follow_within`).
-/

namespace Bitcoin

/-! ### Places in the data -/

/-- Whether a place is one in these data, with what follows it there. -/
structure Cursor.In (cursor : Cursor) (data : Bytes) : Prop where
  position_le : cursor.position ≤ data.length
  rest_eq : cursor.rest = data.drop cursor.position

namespace Cursor

/-- One starts at the front of the data. -/
theorem in_start (data : Bytes) :
  (start data).In data
  := ⟨Nat.zero_le _, rfl⟩

theorem In.length_rest {cursor : Cursor} {data : Bytes} (h : cursor.In data) :
  cursor.rest.length = data.length - cursor.position
  := by
  rw [h.rest_eq, List.length_drop]

/-- What stands between two places is the slice of the data between their positions. -/
theorem In.passes_iff {cursor cursor' : Cursor} {data bytes : Bytes} (h : cursor.In data) :
  cursor.Passes bytes cursor'
    ↔ cursor'.In data ∧ cursor.position ≤ cursor'.position
      ∧ data.extract cursor.position cursor'.position = bytes
  := by
  have hle := h.position_le
  constructor
  · rintro ⟨hrest, hposition⟩
    rw [h.rest_eq] at hrest
    have hlength := congrArg List.length hrest
    rw [List.length_drop, List.length_append] at hlength
    refine ⟨⟨by omega, ?_⟩, by omega, ?_⟩
    · rw [hposition, ← List.drop_drop, hrest, List.drop_left]
    · rw [hposition, List.extract_eq_take_drop, hrest, Nat.add_sub_cancel_left, List.take_left]
  · rintro ⟨hin, hlater, rfl⟩
    have hle' := hin.position_le
    constructor
    · have e := List.take_append_drop (cursor'.position - cursor.position)
        (data.drop cursor.position)
      rw [List.drop_drop, Nat.add_sub_cancel' hlater] at e
      rw [h.rest_eq, hin.rest_eq, List.extract_eq_take_drop, e]
    · rw [List.extract_eq_take_drop, List.length_take, List.length_drop]
      omega

/-- The position behind `n` bytes in data of a size, by the arithmetic of words. There is none if
the sum is too great for a word, which is seen from its being less than its summand, or if it is
behind the data. -/
def stop? (size position n : UInt64) : Option UInt64 :=
  if position + n < position then none
  else if position + n ≤ size then some (position + n)
  else none

/-- A range ends within the data, and its end does not overflow. -/
theorem stop?_eq_some_iff {size position n stop : UInt64} :
  stop? size position n = some stop
    ↔ position.toNat + n.toNat = stop.toNat ∧ stop.toNat ≤ size.toNat
  := by
  have hposition := position.toNat_lt
  have hn := n.toNat_lt
  have hsize := size.toNat_lt
  rw [stop?]
  simp only [UInt64.lt_iff_toNat_lt, UInt64.le_iff_toNat_le, UInt64.toNat_add]
  split_ifs with hwraps hle
  · simp only [false_iff]
    omega
  · rw [Option.some_inj, ← UInt64.toNat_inj, UInt64.toNat_add]
    omega
  · simp only [false_iff]
    omega

end Cursor

/-! ### Requests -/

/-- What can be read at a place. -/
inductive Request where
  /-- A byte string of a known length. -/
  | fixed (n : Nat)
  /-- A byte string, as long as wanted. -/
  | bytes (n : Nat)
  | u8
  | u16
  | u32
  | u64
  /-- A number in one of its forms. -/
  | size
  /-- A byte string behind its length. -/
  | sizedBytes
deriving DecidableEq

namespace Request

/-- What is read. -/
abbrev Value : Request → Type
  | fixed n => FixedBytes n
  | bytes _ => Bytes
  | u8 => UInt8
  | u16 => UInt16
  | u32 => UInt32
  | u64 => UInt64
  | size => Nat
  | sizedBytes => Bytes

/-- Reads it. -/
def reader : (request : Request) → Reader request.Value
  | fixed n => Reader.takeFixed n
  | bytes n => Reader.take n
  | u8 => Reader.u8
  | u16 => Reader.u16
  | u32 => Reader.u32
  | u64 => Reader.u64
  | size => CompactSize.read
  | sizedBytes => CompactSize.readBytes

/-- The number of bytes that a request is for, if that is known beforehand. -/
def width? : Request → Option Nat
  | fixed n => some n
  | bytes n => some n
  | u8 => some 1
  | u16 => some 2
  | u32 => some 4
  | u64 => some 8
  | size => none
  | sizedBytes => none

/-- Whether the bytes are a form of the value. -/
def Form : (request : Request) → Bytes → request.Value → Prop
  | fixed _, form, a => form = a.toList
  | bytes n, form, a => form = a ∧ a.length = n
  | u8, form, byte => form = [byte]
  | u16, form, word => form = Bytes.ofNatLE 2 word.toNat
  | u32, form, word => form = Bytes.ofNatLE 4 word.toNat
  | u64, form, word => form = Bytes.ofNatLE 8 word.toNat
  | size, form, n => CompactSize.Form form n
  | sizedBytes, form, a => ∃ length, CompactSize.Form length a.length ∧ form = length ++ a

/-- Behind which bytes a request may find fewer than it wants: behind none if the number of bytes is
known beforehand, and otherwise where a length may be cut short, or behind a length. -/
inductive Stops : Request → Bytes → Nat → Prop where
  | whole {request : Request} {width : Nat} : request.width? = some width →
      Stops request [] width
  | size {bytes : Bytes} {wanted : Nat} : CompactSize.Cut bytes wanted →
      Stops size bytes wanted
  | length {bytes : Bytes} {wanted : Nat} : CompactSize.Cut bytes wanted →
      Stops sizedBytes bytes wanted
  | content {bytes : Bytes} {n : Nat} : CompactSize.Form bytes n →
      Stops sizedBytes bytes n

open Reader

theorem takesExactly_reader (request : Request) :
  TakesExactly request.reader request.Form
  := by
  cases request with
  | fixed n => exact takesExactly_takeFixed n
  | bytes n => exact takesExactly_take n
  | u8 => exact takesExactly_u8
  | u16 => exact takesExactly_u16
  | u32 => exact takesExactly_u32
  | u64 => exact takesExactly_u64
  | size => exact CompactSize.takesExactly_read
  | sizedBytes => exact CompactSize.takesExactly_readBytes

theorem Stops.whole_iff {request : Request} {width wanted : Nat} {bytes : Bytes}
    (h : request.width? = some width) :
  Whole width bytes wanted ↔ request.Stops bytes wanted
  := by
  constructor
  · rintro ⟨rfl, rfl⟩
    exact .whole h
  · rintro (h' | _ | _ | _)
    · exact ⟨rfl, Option.some_inj.mp (h'.symm.trans h)⟩
    all_goals cases h

/-- A request fails where it is said to stop. -/
theorem failsExactly_reader (request : Request) :
  FailsExactly request.reader request.Stops
  := by
  cases request with
  | fixed n => exact (failsExactly_takeFixed n).congr fun _ _ => Stops.whole_iff rfl
  | bytes n => exact (failsExactly_take n).congr fun _ _ => Stops.whole_iff rfl
  | u8 => exact failsExactly_u8.congr fun _ _ => Stops.whole_iff rfl
  | u16 => exact failsExactly_u16.congr fun _ _ => Stops.whole_iff rfl
  | u32 => exact failsExactly_u32.congr fun _ _ => Stops.whole_iff rfl
  | u64 => exact failsExactly_u64.congr fun _ _ => Stops.whole_iff rfl
  | size =>
    apply CompactSize.failsExactly_read.congr
    intro bytes wanted
    constructor
    · exact .size
    · rintro (⟨⟨⟩⟩ | hcut)
      exact hcut
  | sizedBytes =>
    apply CompactSize.failsExactly_readBytes.congr
    intro bytes wanted
    constructor
    · rintro (hcut | hlength)
      · exact .length hcut
      · exact .content hlength
    · rintro (⟨⟨⟩⟩ | _ | hcut | hlength)
      · exact .inl hcut
      · exact .inr hlength

/-- What is passed over before a failure is nothing, or else begins a length. -/
theorem Stops.exists_form {request : Request} {bytes : Bytes} {wanted : Nat}
    (h : request.Stops bytes wanted) :
  ∃ length n, CompactSize.Form length n ∧ bytes <+: length
  := by
  cases h with
  | whole _ => exact ⟨[0], 0, .byte (by decide), List.nil_prefix⟩
  | size hcut => exact hcut.exists_form
  | length hcut => exact hcut.exists_form
  | content hlength => exact ⟨bytes, wanted, hlength, List.prefix_refl bytes⟩

/-! ### Requests one after the other -/

/-- The place that a request leaves, whether it is met or not. -/
def leave (request : Request) (place : Cursor) : Cursor :=
  match request.reader place with
  | .ok _ place' => place'
  | .error _ place' => place'

/-- The place that requests leave which are followed one after the other. -/
def follow (requests : List Request) (place : Cursor) : Cursor :=
  requests.foldl (fun place request => request.leave place) place

theorem follow_append (requests more : List Request) (place : Cursor) :
  follow (requests ++ more) place = follow more (follow requests place)
  := List.foldl_append

/-- A request passes over bytes to the place that it leaves. -/
theorem exists_passes_leave (request : Request) (place : Cursor) :
  ∃ bytes, place.Passes bytes (request.leave place)
  := by
  rw [leave]
  cases hread : request.reader place with
  | ok a place' =>
    obtain ⟨bytes, _, hpasses⟩ := (request.takesExactly_reader _ _ _).mp hread
    exact ⟨bytes, hpasses⟩
  | error e place' =>
    obtain ⟨bytes, _, _, hpasses, _⟩ := (request.failsExactly_reader _ _ _).mp hread
    exact ⟨bytes, hpasses⟩

/-- Requests that follow each other pass over bytes one after the other. -/
theorem exists_passes_follow (requests : List Request) (place : Cursor) :
  ∃ bytes, place.Passes bytes (follow requests place)
  := by
  induction requests generalizing place with
  | nil => exact ⟨[], .refl place⟩
  | cons request requests ih =>
    -- A request that fails leaves a place as one that is met does, and the next goes on from it.
    obtain ⟨first, hfirst⟩ := request.exists_passes_leave place
    obtain ⟨second, hsecond⟩ := ih (request.leave place)
    exact ⟨first ++ second, hfirst.trans hsecond⟩

/-- Requests never lead out of the data. -/
theorem in_follow (requests : List Request) (data : Bytes) :
  (follow requests (.start data)).In data
  := by
  obtain ⟨bytes, hpasses⟩ := exists_passes_follow requests (.start data)
  exact ((Cursor.in_start data).passes_iff.mp hpasses).1

/-! ### What is read from the data -/

/-- What is asked of a request that is followed at a place in the data. -/
structure ReadsWithin (data : Bytes) (place : Cursor) (request : Request) : Prop where
  /-- A value is taken exactly if the data from the place to another have a form of it. -/
  ok_iff : ∀ a place', request.reader place = .ok a place' ↔
    place'.In data ∧ place.position ≤ place'.position
      ∧ request.Form (data.extract place.position place'.position) a
  /-- Nothing is taken exactly if the data end too early for what is wanted behind a place. -/
  error_iff : ∀ e place', request.reader place = .error e place' ↔
    place'.In data ∧ place.position ≤ place'.position
      ∧ ∃ wanted, request.Stops (data.extract place.position place'.position) wanted
        ∧ data.length < place'.position + wanted
        ∧ e = .decoding (.endOfData wanted place'.position (data.length - place'.position))
  /-- All bytes are taken or none if it is known how many there are. -/
  eq_of_width : ∀ e place' width, request.width? = some width →
    request.reader place = .error e place' → place' = place
  /-- Otherwise a length is taken at most. -/
  begins_length : ∀ e place', request.reader place = .error e place' →
    ∃ length n, CompactSize.Form length n
      ∧ data.extract place.position place'.position <+: length

/-- Within the data, requests read exactly what stands there. -/
theorem readsWithin_of_in {data : Bytes} {place : Cursor} (h : place.In data)
    (request : Request) :
  request.ReadsWithin data place
  where
  ok_iff := by
    intro a place'
    rw [request.takesExactly_reader place a place']
    constructor
    · rintro ⟨bytes, hform, hpasses⟩
      obtain ⟨hin, hlater, rfl⟩ := h.passes_iff.mp hpasses
      exact ⟨hin, hlater, hform⟩
    · rintro ⟨hin, hlater, hform⟩
      exact ⟨_, hform, h.passes_iff.mpr ⟨hin, hlater, rfl⟩⟩
  error_iff := by
    intro e place'
    rw [request.failsExactly_reader place e place']
    constructor
    · rintro ⟨bytes, wanted, hstops, hpasses, hlt, rfl⟩
      obtain ⟨hin, hlater, rfl⟩ := h.passes_iff.mp hpasses
      have hle := hin.position_le
      rw [hin.length_rest] at hlt ⊢
      exact ⟨hin, hlater, wanted, hstops, by omega, rfl⟩
    · rintro ⟨hin, hlater, wanted, hstops, hlt, rfl⟩
      have hle := hin.position_le
      refine ⟨_, wanted, hstops, h.passes_iff.mpr ⟨hin, hlater, rfl⟩, ?_⟩
      rw [hin.length_rest]
      exact ⟨by omega, rfl⟩
  eq_of_width := by
    intro e place' width hwidth hread
    obtain ⟨bytes, wanted, hstops, hpasses, _⟩ := (request.failsExactly_reader _ _ _).mp hread
    obtain ⟨rfl, _⟩ := (Stops.whole_iff hwidth).mpr hstops
    exact hpasses.eq_of_nil
  begins_length := by
    intro e place' hread
    obtain ⟨bytes, wanted, hstops, hpasses, _⟩ := (request.failsExactly_reader _ _ _).mp hread
    obtain ⟨_, _, rfl⟩ := h.passes_iff.mp hpasses
    exact hstops.exists_form

/-- As many bytes as wanted are taken exactly if the data do not end before them. -/
theorem exists_reader_bytes_iff {data : Bytes} {place : Cursor} (h : place.In data)
    (n stop : Nat) :
  (∃ a place', (bytes n).reader place = .ok a place' ∧ place'.position = stop)
    ↔ place.position + n = stop ∧ stop ≤ data.length
  := by
  have hreads := readsWithin_of_in h (bytes n)
  constructor
  · rintro ⟨a, place', hread, rfl⟩
    obtain ⟨hin, hlater, rfl, hlength⟩ := (hreads.ok_iff a place').mp hread
    have hle := hin.position_le
    rw [List.extract_eq_take_drop, List.length_take, List.length_drop] at hlength
    omega
  · rintro ⟨rfl, hle⟩
    use data.extract place.position (place.position + n),
      ⟨place.position + n, data.drop (place.position + n)⟩
    refine ⟨(hreads.ok_iff _ _).mpr ⟨⟨hle, rfl⟩, Nat.le_add_right _ _, rfl, ?_⟩, rfl⟩
    rw [List.extract_eq_take_drop, List.length_take, List.length_drop]
    omega

/-- Reading never leaves the data, whatever is requested and however many requests fail. The place
that requests leave is one in the data, and not behind the places that further ones leave. At that
place a request of any kind takes a value exactly from the slice of the data that is a form of the
value, and otherwise fails where the data end too early, with nothing taken if the number of bytes
was known beforehand, and at most a length if it was not. The end of as many bytes as wanted can be
found by the arithmetic of words, also for the greatest numbers. -/
theorem follow_within (data : Bytes) (requests : List Request) :
  let place := follow requests (.start data)
  place.In data
    ∧ (∀ more, place.position ≤ (follow (requests ++ more) (.start data)).position)
    ∧ (∀ request : Request, request.ReadsWithin data place)
    ∧ (data.length < UInt64.size → ∀ n stop : UInt64,
      Cursor.stop? (UInt64.ofNat data.length) (UInt64.ofNat place.position) n = some stop
        ↔ ∃ a place', (bytes n.toNat).reader place = .ok a place'
          ∧ place'.position = stop.toNat)
  := by
  intro place
  have hin : place.In data := in_follow requests data
  refine ⟨hin, ?_, readsWithin_of_in hin, ?_⟩
  · intro more
    obtain ⟨bytes, hpasses⟩ := exists_passes_follow more place
    rw [follow_append, hpasses.position_eq]
    apply Nat.le_add_right
  · intro hdata n stop
    have hposition := Nat.lt_of_le_of_lt hin.position_le hdata
    rw [Cursor.stop?_eq_some_iff, exists_reader_bytes_iff hin, UInt64.toNat_ofNat_of_lt' hdata,
      UInt64.toNat_ofNat_of_lt' hposition]

/-- Two bytes where five are promised: their length is taken and they are left. As many bytes as a
word can count are refused there, since their end is no word, and then the two are taken. -/
theorem follow_within_cut_short :
  let data : Bytes := [5, 1, 2]
  let place := follow [sizedBytes] (.start data)
  let greatest : UInt64 := 0xffffffffffffffff
  data.length < UInt64.size
    ∧ place = ⟨1, [1, 2]⟩
    ∧ place.In data
    ∧ (∀ more, 1 ≤ (follow (sizedBytes :: more) (.start data)).position)
    ∧ (∃ e, (bytes greatest.toNat).reader place = .error e place)
    ∧ (∀ e place', (bytes greatest.toNat).reader place = .error e place' → place' = place)
    ∧ Cursor.stop? 3 1 greatest = none
    ∧ Cursor.stop? 3 1 2 = some 3
    ∧ ∃ a place', (bytes 2).reader place = .ok a place' ∧ place'.position = 3
  := by
  intro data place greatest
  have hdata : data.length < UInt64.size := by decide
  have hplace : place = ⟨1, [1, 2]⟩ := rfl
  have hfails : ∃ e, (bytes greatest.toNat).reader place = .error e place := ⟨_, rfl⟩
  have hstop : Cursor.stop? 3 1 2 = some 3 := by decide
  obtain ⟨hin, hlater, hreads, hwords⟩ := follow_within data [sizedBytes]
  exact ⟨hdata, hplace, hin, hlater, hfails,
    fun e place' => (hreads (bytes greatest.toNat)).eq_of_width e place' _ rfl, by decide, hstop,
    (hwords hdata 2 3).mp hstop⟩

end Request

end Bitcoin
