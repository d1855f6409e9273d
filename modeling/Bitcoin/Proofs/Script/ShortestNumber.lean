import Bitcoin.Machine.Item
import Bitcoin.Proofs.Script.Number

/-!
# The shortest forms of numbers

Zeros between the magnitude and the sign make a form of a number longer than it has to be, and
the number is then written shorter than it was read. `ScriptNumber.IsShortest` are the forms of
which no byte can be left out. Up to eight bytes, reading and writing numbers are the inverse of
each other on them, and on no other forms (`ScriptNumber.forms_canonical`).
-/

namespace Bitcoin.ScriptNumber

/-- Whether no byte can be left out: the last one has a bit of the magnitude, or the one before it
leaves no room for the sign. -/
def IsShortest (bytes : Bytes) : Prop :=
  match bytes.reverse with
  | [] => True
  | [top] => top &&& 0x7f ≠ 0
  | top :: second :: _ => top &&& 0x7f ≠ 0 ∨ second ≥ 0x80

instance (bytes : Bytes) : Decidable (IsShortest bytes) := by
  unfold IsShortest
  split <;> infer_instance

/-! ### The last byte -/

/-- The last byte is needed if the magnitude and the sign take more bits than the others have. -/
theorem isShortest_reverse_cons_iff (top : UInt8) (rest : Bytes) :
  IsShortest (top :: rest).reverse
    ↔ 256 ^ rest.length ≤ 2 * (value (top :: rest).reverse).natAbs
  := by
  have htop : top &&& 0x7f ≠ 0 ↔ 0 < (top &&& 0x7f).toNat := by
    rw [Nat.pos_iff_ne_zero, Ne, ← UInt8.toNat_inj]
    rfl
  rw [natAbs_value_reverse_cons, Bytes.toNatBE_cons, IsShortest, List.reverse_reverse]
  cases rest with
  | nil =>
    dsimp only [List.length_nil]
    rw [htop, pow_zero, Nat.mul_one]
    change _ ↔ 1 ≤ 2 * ((top &&& 0x7f).toNat + 0)
    omega
  | cons second more =>
    dsimp only
    rw [htop, ge_iff_le, UInt8.le_iff_toNat_le, Bytes.toNatBE_cons, List.length_cons, pow_succ]
    change _ ∨ 0x80 ≤ second.toNat ↔ _
    have hmore := Bytes.toNatBE_lt more
    constructor
    · rintro (hpos | hsign)
      · have hscaled := Nat.mul_le_mul_right (256 ^ more.length * 256) hpos
        omega
      · have hscaled := Nat.mul_le_mul_right (256 ^ more.length) hsign
        omega
    · intro hle
      by_contra hnot
      obtain ⟨hzero, hsign⟩ := not_or.mp hnot
      obtain hzero := Nat.eq_zero_of_not_pos hzero
      have hscaled := Nat.mul_le_mul_right (256 ^ more.length)
        (Nat.le_of_lt_succ (Nat.lt_of_not_le hsign))
      rw [hzero] at hle
      omega

/-- A byte is its sign bit and the others. -/
theorem eq_of_sign_eq {a b : UInt8} (hsign : a ≥ 0x80 ↔ b ≥ 0x80) (h : a &&& 0x7f = b &&& 0x7f) :
  a = b
  := by
  have hclear : ∀ c : UInt8, (c &&& 0x7f).toNat = c.toNat % 128 := by
    intro c
    rw [UInt8.toNat_and]
    exact Nat.and_two_pow_sub_one_eq_mod c.toNat 7
  have hrest : a.toNat % 128 = b.toNat % 128 := by rw [← hclear, ← hclear, h]
  rw [ge_iff_le, ge_iff_le, UInt8.le_iff_toNat_le, UInt8.le_iff_toNat_le] at hsign
  change 128 ≤ a.toNat ↔ 128 ≤ b.toNat at hsign
  apply UInt8.toNat_inj.mp
  have ha := a.toNat_lt
  have hb := b.toNat_lt
  omega

/-- Of a number other than zero, the sign is in the last byte. -/
theorem top_ge_iff {top : UInt8} {rest : Bytes} (h : value (top :: rest).reverse ≠ 0) :
  top ≥ 0x80 ↔ value (top :: rest).reverse < 0
  := by
  rw [value_reverse_cons] at h ⊢
  split
  · next hsign =>
    rw [if_pos hsign] at h
    exact iff_of_true hsign (by omega)
  · next hsign => exact iff_of_false hsign (by omega)

/-- A number other than zero has one form of each length. -/
theorem eq_of_value_eq {a b : Bytes} (hlength : a.length = b.length) (h : value a = value b)
    (hne : value b ≠ 0) :
  a = b
  := by
  cases ha : a.reverse with
  | nil =>
    obtain rfl := List.reverse_eq_nil_iff.mp ha
    exact (List.length_eq_zero_iff.mp hlength.symm).symm
  | cons top rest =>
    cases hb : b.reverse with
    | nil =>
      obtain rfl := List.reverse_eq_nil_iff.mp hb
      exact absurd rfl hne
    | cons top' rest' =>
      obtain rfl := List.reverse_eq_iff.mp ha
      obtain rfl := List.reverse_eq_iff.mp hb
      have hrest : rest.length = rest'.length := by simpa using hlength
      have hmagnitude := congrArg Int.natAbs h
      rw [natAbs_value_reverse_cons, natAbs_value_reverse_cons] at hmagnitude
      have hbytes : (top &&& 0x7f) :: rest = (top' &&& 0x7f) :: rest' := by
        rw [← Bytes.ofNatBE_toNatBE (_ :: rest), ← Bytes.ofNatBE_toNatBE (_ :: rest'), hmagnitude,
          List.length_cons, List.length_cons, hrest]
      obtain ⟨hclear, rfl⟩ := List.cons.inj hbytes
      have hsign : top ≥ 0x80 ↔ top' ≥ 0x80 := by
        rw [top_ge_iff hne, top_ge_iff (by rwa [h]), h]
      rw [eq_of_sign_eq hsign hclear]

/-! ### Writing a number that was read -/

theorem length_encode_value_le (bytes : Bytes) :
  (encode (value bytes)).length ≤ bytes.length
  := length_encode_le_iff.mpr (two_mul_natAbs_value_lt bytes)

/-- The form that is written is the one that was read, if that has no byte too many. -/
theorem encode_value_eq_iff (bytes : Bytes) :
  encode (value bytes) = bytes ↔ IsShortest bytes
  := by
  cases h : bytes.reverse with
  | nil =>
    obtain rfl := List.reverse_eq_nil_iff.mp h
    exact iff_of_true rfl trivial
  | cons top rest =>
    obtain rfl := List.reverse_eq_iff.mp h
    have hlength : (top :: rest).reverse.length = rest.length + 1 := by simp
    rw [isShortest_reverse_cons_iff, ← Nat.not_lt, ← length_encode_le_iff]
    constructor
    · intro heq hle
      rw [heq, hlength] at hle
      exact Nat.not_succ_le_self _ hle
    · intro hlt
      have hle := length_encode_value_le (top :: rest).reverse
      apply eq_of_value_eq
      · omega
      · exact value_encode _
      · intro hzero
        rw [hzero] at hlt
        exact hlt (Nat.zero_le _)

/-- An integer that has a word of 64 bits, the least of these apart, is read back from its shortest
form. At most eight bytes are always the form of such an integer. They count as true if it is not
zero, and they are its shortest form exactly if none of them can be left out. -/
theorem forms_canonical :
  (∀ n : Int, n.natAbs < 2 ^ 63 → decode (encode n) 8 = .ok n)
    ∧ ∀ bytes : Bytes, bytes.length ≤ 8 →
      ∃ n : Int, decode bytes 8 = .ok n ∧ n.natAbs < 2 ^ 63
        ∧ (encode n).length ≤ bytes.length
        ∧ (encode n = bytes ↔ IsShortest bytes)
        ∧ ((Item.bytes bytes).toBool = true ↔ n ≠ 0)
  := by
  constructor
  · exact fun n hn => decode_encode (by omega) (Nat.le_refl 8)
  · intro bytes hle
    have hmagnitude := two_mul_natAbs_value_lt bytes
    have hpow : 256 ^ bytes.length ≤ 256 ^ 8 := Nat.pow_le_pow_right (by decide) hle
    refine ⟨value bytes, decode_of_le hle (Nat.le_refl 8), by omega, length_encode_value_le bytes,
      encode_value_eq_iff bytes, ?_⟩
    rw [Item.toBool, isTrue_eq, bne_iff_ne]

/-- The greatest number takes eight bytes. A sign behind a byte with room for it is too much, and so
the form that is read is not the one that is written. -/
theorem forms_canonical_padded :
  let greatest : Int := 2 ^ 63 - 1
  let padded : Bytes := [0x7f, 0x80]
  greatest.natAbs < 2 ^ 63 ∧ decode (encode greatest) 8 = .ok greatest
    ∧ padded.length ≤ 8 ∧ ∃ n : Int, decode padded 8 = .ok n ∧ encode n ≠ padded ∧ n ≠ 0
  := by
  intro greatest padded
  have hgreatest : greatest.natAbs < 2 ^ 63 := by decide
  have hpadded : padded.length ≤ 8 := by decide
  obtain ⟨hencode, hdecode⟩ := forms_canonical
  obtain ⟨n, hn, _, _, hshortest, htrue⟩ := hdecode padded hpadded
  exact ⟨hgreatest, hencode greatest hgreatest, hpadded, n, hn, hshortest.not.mpr (by decide),
    htrue.mp (by decide)⟩

end Bitcoin.ScriptNumber
