import Bitcoin.Proofs.Wire.Reader
import Bitcoin.Wire.CompactSize

/-!
# Reading compact sizes back

A number has several forms (`CompactSize.Form`): alone in a byte that is no mark, or behind any
mark for a width that it fits into. It is taken from each of them and from nothing else. A number
below `2 ^ 64` is taken from its shortest form, and a byte string of such a length from behind its
length.
-/

namespace Bitcoin.CompactSize

open Reader

/-- The marks, and the widths of the numbers behind them. -/
inductive Mark : UInt8 → Nat → Prop where
  | word : Mark 0xfd 2
  | double : Mark 0xfe 4
  | quad : Mark 0xff 8

/-- The forms of a number, of which the shortest is not always the one that is used. -/
inductive Form : Bytes → Nat → Prop where
  | byte {b : UInt8} : b < 0xfd → Form [b] b.toNat
  | marked {mark : UInt8} {width n : Nat} : Mark mark width → n < 256 ^ width →
      Form (mark :: Bytes.ofNatLE width n) n

/-- Takes what stands behind the first byte of a number. -/
def afterMark (mark : UInt8) : Reader Nat :=
  if mark = 0xfd then Reader.natLE 2
  else if mark = 0xfe then Reader.natLE 4
  else if mark = 0xff then Reader.natLE 8
  else return mark.toNat

theorem read_eq :
  read = Reader.u8 >>= afterMark
  := rfl

namespace Mark

variable {mark : UInt8} {width width' : Nat}

theorem not_lt (h : Mark mark width) :
  ¬ mark < 0xfd
  := by
  cases h <;> decide

theorem unique (h : Mark mark width) (h' : Mark mark width') :
  width = width'
  := by
  cases h <;> cases h' <;> rfl

/-- Behind a mark stand the bytes of its width. -/
theorem afterMark (h : Mark mark width) :
  afterMark mark = Reader.natLE width
  := by
  cases h <;> rfl

end Mark

/-- A byte that is not below the marks is one of them. -/
theorem lt_or_mark (b : UInt8) :
  b < 0xfd ∨ ∃ width, Mark b width
  := by
  by_cases hword : b = 0xfd
  · exact .inr ⟨2, hword ▸ .word⟩
  · by_cases hdouble : b = 0xfe
    · exact .inr ⟨4, hdouble ▸ .double⟩
    · by_cases hquad : b = 0xff
      · exact .inr ⟨8, hquad ▸ .quad⟩
      · left
        have hlt := b.toNat_lt
        simp only [← UInt8.toNat_inj, UInt8.lt_iff_toNat_lt, UInt8.reduceToNat]
          at hword hdouble hquad ⊢
        omega

theorem afterMark_of_lt {b : UInt8} (h : b < 0xfd) :
  afterMark b = pure b.toNat
  := by
  have hne : ∀ {mark : UInt8}, ¬ mark < 0xfd → b ≠ mark := by
    rintro mark hmark rfl
    exact hmark h
  rw [afterMark, if_neg (hne (by decide)), if_neg (hne (by decide)), if_neg (hne (by decide))]

/-- A number is read from each of its forms. -/
theorem takes_of_form {bytes : Bytes} {n : Nat} (h : Form bytes n) :
  Takes read bytes n
  := by
  rw [read_eq]
  cases h with
  | @byte b hb =>
    have hpure : Takes (afterMark b) [] b.toNat := by
      rw [afterMark_of_lt hb]
      apply Takes.pure
    apply (takes_u8 b).bind hpure
  | @marked mark _ _ hmark hn =>
    apply (takes_u8 mark).bind
    rw [hmark.afterMark]
    apply takes_natLE hn

/-- Only the forms of a number are read as one. -/
theorem takesOnly_form :
  TakesOnly read Form
  := by
  rw [read_eq]
  apply takesOnly_u8.bind
  rintro _ b rfl
  rcases lt_or_mark b with hb | ⟨width, hmark⟩
  · rw [afterMark_of_lt hb]
    apply TakesOnly.pure (.byte hb)
  · rw [hmark.afterMark]
    apply (takesOnly_natLE width).mono
    rintro _ n ⟨hn, rfl⟩
    exact .marked hmark hn

/-- The shortest form is one of them. -/
theorem form_encode {n : Nat} (h : n < UInt64.size) :
  Form (encode n) n
  := by
  rw [encode]
  split
  · next hn =>
    have hb : (UInt8.ofNat n).toNat = n := UInt8.toNat_ofNat_of_lt' (lt_trans hn (by decide))
    have hform : Form [UInt8.ofNat n] (UInt8.ofNat n).toNat := by
      apply Form.byte
      rwa [UInt8.lt_iff_toNat_lt, hb]
    rwa [hb] at hform
  · split
    · exact .marked .word (by omega)
    · split
      · exact .marked .double (by omega)
      · exact .marked .quad h

theorem takes_encode {n : Nat} (h : n < UInt64.size) :
  Takes read (encode n) n
  := takes_of_form (form_encode h)

/-- A byte string is read with its length in front of it. -/
theorem takes_encodeBytes {bytes : Bytes} (h : bytes.length < UInt64.size) :
  Takes readBytes (encodeBytes bytes) bytes
  := (takes_encode h).bind (takes_take bytes)

end Bitcoin.CompactSize
