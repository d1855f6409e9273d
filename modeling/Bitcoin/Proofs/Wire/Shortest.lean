import Bitcoin.Proofs.Wire.CompactSize

/-!
# The shortest form of what is read

A number is taken from any of the forms of a compact size, of which `CompactSize.encode`
writes the shortest. So what is taken need not be written as it stood there: either it is, or
what stood there is longer than what is written (`Bytes.OrLonger`). Forms that stand one behind
the other are related in the same way, and so this is what can be said of everything that is
read from the wire.
-/

namespace Bitcoin

/-- Whether bytes are the shortest ones that could stand in their place, or longer. -/
def Bytes.OrLonger (shortest bytes : Bytes) : Prop :=
  bytes = shortest ∨ shortest.length < bytes.length

namespace Bytes.OrLonger

variable {shortest bytes shortest' bytes' : Bytes}

theorem refl (bytes : Bytes) :
  OrLonger bytes bytes
  := .inl rfl

theorem append (h : OrLonger shortest bytes) (h' : OrLonger shortest' bytes') :
  OrLonger (shortest ++ shortest') (bytes ++ bytes')
  := by
  rw [OrLonger, List.length_append, List.length_append]
  rcases h with rfl | h
  · rcases h' with rfl | h'
    · exact .inl rfl
    · right
      omega
  · have hle : shortest'.length ≤ bytes'.length := by
      rcases h' with rfl | h'
      · apply Nat.le_refl _
      · apply Nat.le_of_lt h'
    right
    omega

theorem length_le (h : OrLonger shortest bytes) :
  shortest.length ≤ bytes.length
  := by
  rcases h with rfl | h
  · apply Nat.le_refl _
  · apply Nat.le_of_lt h

/-- Of all the bytes that could stand in their place, the shortest ones are the only ones of
their length. -/
theorem eq_of_length_le (h : OrLonger shortest bytes) (hle : bytes.length ≤ shortest.length) :
  bytes = shortest
  := by
  rcases h with rfl | h
  · rfl
  · apply absurd h (Nat.not_lt.mpr hle)

/-- A form that is chosen first must be the shorter one. -/
theorem ite {c : Prop} [Decidable c] (h : shortest.length < bytes.length)
    (h' : ¬ c → OrLonger shortest' bytes) :
  OrLonger (if c then shortest else shortest') bytes
  := by
  split
  · exact .inr h
  · next hc => exact h' hc

end Bytes.OrLonger

open Reader Bytes

/-- Where a value is taken from its shortest form or from a longer one, so is a list of such
values. -/
theorem Reader.takesOnly_many_of_orLonger
    {α : Type} {reader : Reader α} {encode : α → Bytes} {good : α → Prop}
    (h : TakesOnly reader fun bytes a => OrLonger (encode a) bytes ∧ good a) (count : Nat) :
  TakesOnly (many count reader) fun bytes xs =>
    xs.length = count ∧ OrLonger (xs.flatMap encode) bytes ∧ ∀ x ∈ xs, good x
  := by
  apply takesOnly_many h ⟨.refl _, List.forall_mem_nil _⟩
  rintro first x rest xs ⟨hfirst, hx⟩ ⟨hrest, hxs⟩
  exact ⟨hfirst.append hrest, List.forall_mem_cons.mpr ⟨hx, hxs⟩⟩

namespace CompactSize

/-- A form of a number is the shortest one or longer. -/
theorem Form.orLonger {bytes : Bytes} {n : Nat} (h : Form bytes n) :
  n < UInt64.size ∧ OrLonger (encode n) bytes
  := by
  rcases h with @⟨b, hb⟩ | ⟨_ | _ | _, hn⟩
  · have hsmall : b.toNat < 0xfd := UInt8.lt_iff_toNat_lt.mp hb
    rw [encode, if_pos hsmall, UInt8.ofNat_toNat]
    exact ⟨lt_trans hsmall (by decide), .refl _⟩
  · refine ⟨lt_trans hn (by decide), .ite (by simp) fun _ => ?_⟩
    rw [if_pos (by omega)]
    apply OrLonger.refl
  · refine ⟨lt_trans hn (by decide), .ite (by simp) fun _ => .ite (by simp) fun _ => ?_⟩
    rw [if_pos (by omega)]
    apply OrLonger.refl
  · refine ⟨hn, .ite (by simp) fun _ => .ite (by simp) fun _ => .ite (by simp) fun _ => ?_⟩
    apply OrLonger.refl

/-- A number is taken from its shortest form or from a longer one. -/
theorem takesOnly_read :
  TakesOnly read fun bytes n => n < UInt64.size ∧ OrLonger (encode n) bytes
  := takesOnly_form.mono fun _ _ => Form.orLonger

/-- A byte string is taken from behind its length in any form. -/
theorem takesOnly_readBytes :
  TakesOnly readBytes fun bytes data =>
    data.length < UInt64.size ∧ OrLonger (encodeBytes data) bytes
  := by
  apply takesOnly_read.bind
  rintro size n ⟨hn, hsize⟩
  apply (takesOnly_take n).mono
  rintro _ data ⟨rfl, rfl⟩
  exact ⟨hn, hsize.append (.refl _)⟩

end CompactSize

end Bitcoin
