import Bitcoin.Proofs.Bytes
import Bitcoin.Proofs.Except
import Bitcoin.Signature.Der

/-!
# The distinguished encoding is strict

Each integer has one encoding, the one that `Signature.integerBytes` writes, and so has
each signature: `Signature.ofDer` reads exactly what `Signature.toDer` writes
(`Signature.ofDer_eq_ok_iff`).
-/

namespace Bitcoin.Signature

open Bytes

/-! ### Integers -/

theorem ofBytesUpTo32_eq_ok_iff {bytes : Bytes} {k : Scalar} :
  Scalar.ofBytesUpTo32 bytes = .ok k ↔ bytes.length ≤ 32 ∧ toNatBE bytes = k.val
  := by
  rw [Scalar.ofBytesUpTo32, Scalar.ofNat?]
  split
  · next h =>
    constructor
    · rintro ⟨⟩
    · exact fun ⟨hle, _⟩ => absurd hle (Nat.not_le.mpr h)
  · next h =>
    rw [and_iff_right (Nat.not_lt.mp h)]
    split
    · next hk =>
      split at hk
      · cases hk
        exact ⟨fun e => congrArg Fin.val (Except.ok.inj e), fun e => congrArg Except.ok (Fin.ext e)⟩
      · cases hk
    · next hk =>
      split at hk
      · cases hk
      · next hrange =>
        constructor
        · rintro ⟨⟩
        · rintro e
          apply absurd (e ▸ k.isLt) hrange

/-- The fewest bytes of a scalar. -/
def magnitude (k : NonzeroScalar) : Bytes :=
  k.val.toBytes.toList.trimZeros

theorem scalar_lt (k : Scalar) :
  k.val < 256 ^ 32
  := lt_trans k.isLt (by decide)

/-- The bytes of a scalar without zeros in front denote it. -/
theorem toNatBE_magnitude (k : NonzeroScalar) :
  toNatBE (magnitude k) = k.val.val
  := by
  rw [magnitude, toNatBE_trimZeros]
  apply toNatBE_ofNatBE_of_lt (scalar_lt k.val)

theorem length_magnitude_le (k : NonzeroScalar) :
  (magnitude k).length ≤ 32
  := by
  have h := length_trimZeros_le k.val.toBytes.toList
  rwa [k.val.toBytes.length_eq] at h

/-- The fewest bytes of a scalar begin with one that is not zero. -/
theorem exists_magnitude (k : NonzeroScalar) :
  ∃ first rest, magnitude k = first :: rest ∧ first ≠ 0
  := by
  cases h : magnitude k with
  | nil =>
    have e := toNatBE_magnitude k
    rw [h] at e
    apply absurd (Fin.ext e.symm) k.property
  | cons first rest => exact ⟨first, rest, rfl, head_trimZeros_ne h⟩

/-- Bytes that do not begin with a zero are the fewest of the scalar that they denote. -/
theorem magnitude_eq_of_toNatBE {k : NonzeroScalar} {first : UInt8} {rest : Bytes}
    (hlength : (first :: rest).length ≤ 32) (hfirst : first ≠ 0)
    (h : toNatBE (first :: rest) = k.val.val) :
  magnitude k = first :: rest
  := by
  rw [magnitude, Scalar.toBytes, FixedBytes.ofNatBE, ← h]
  apply trimZeros_ofNatBE_toNatBE hlength hfirst

/-- A zero is put in front of what would be taken for a negative number. -/
theorem integerBytes_of_magnitude {k : NonzeroScalar} {first : UInt8} {rest : Bytes}
    (h : magnitude k = first :: rest) :
  integerBytes k = if first ≥ 0x80 then 0 :: first :: rest else first :: rest
  := by
  rw [magnitude] at h
  rw [integerBytes, h]

theorem length_integerBytes_pos (k : NonzeroScalar) :
  0 < (integerBytes k).length
  := by
  obtain ⟨first, rest, h, _⟩ := exists_magnitude k
  rw [integerBytes_of_magnitude h]
  split <;> exact Nat.zero_lt_succ _

/-- With this zero there are at most 33 bytes. -/
theorem length_integerBytes_le (k : NonzeroScalar) :
  (integerBytes k).length ≤ 33
  := by
  obtain ⟨first, rest, h, _⟩ := exists_magnitude k
  have hle := length_magnitude_le k
  rw [h] at hle
  rw [integerBytes_of_magnitude h]
  split
  · apply Nat.succ_le_succ hle
  · apply Nat.le_succ_of_le hle

/-- The bytes after the sign, if they are few enough and not all zeros, are a scalar. -/
theorem ofIntegerBytes_of_sign {bytes digits : Bytes} (hdigits : digits = if bytes.headD 0 = 0 then
      bytes.tail else bytes)
    (hsign : ¬ bytes.headD 0 ≥ 0x80)
    (hpad : ¬ (bytes.length > 1 ∧ bytes.headD 0 = 0 ∧ bytes.tail.headD 0 < 0x80))
    (k : NonzeroScalar) :
  ofIntegerBytes bytes = .ok k ↔ digits.length ≤ 32 ∧ toNatBE digits = k.val.val
  := by
  rw [ofIntegerBytes, if_neg hsign, if_neg hpad, ← hdigits, ← ofBytesUpTo32_eq_ok_iff]
  cases hread : Scalar.ofBytesUpTo32 digits with
  | error e =>
    constructor
    · rintro ⟨⟩
    · rintro ⟨⟩
  | ok n =>
    dsimp only
    split
    · constructor
      · rintro ⟨⟩
        rfl
      · rintro ⟨⟩
        rfl
    · next hn =>
      constructor
      · rintro ⟨⟩
      · rintro ⟨⟩
        apply absurd k.property hn

/-- An integer is read from its encoding and from no other bytes. -/
theorem ofIntegerBytes_eq_ok_iff {bytes : Bytes} {k : NonzeroScalar} :
  ofIntegerBytes bytes = .ok k ↔ bytes = integerBytes k
  := by
  constructor
  · intro h
    have hsign : ¬ bytes.headD 0 ≥ 0x80 := by
      intro hhigh
      rw [ofIntegerBytes, if_pos hhigh] at h
      cases h
    have hpad : ¬ (bytes.length > 1 ∧ bytes.headD 0 = 0 ∧ bytes.tail.headD 0 < 0x80) := by
      intro hpadded
      rw [ofIntegerBytes, if_neg hsign, if_pos hpadded] at h
      cases h
    obtain ⟨hlength, hvalue⟩ := (ofIntegerBytes_of_sign rfl hsign hpad k).mp h
    cases bytes with
    | nil => apply absurd (Fin.ext hvalue.symm) k.property
    | cons head tail =>
      by_cases hhead : head = 0
      · subst hhead
        cases tail with
        | nil => apply absurd (Fin.ext hvalue.symm) k.property
        | cons first rest =>
          have hfirst : first ≥ 0x80 := by
            simpa using hpad
          have hne : first ≠ 0 := by
            rintro rfl
            apply absurd hfirst (by decide)
          have hmagnitude := magnitude_eq_of_toNatBE hlength hne hvalue
          rw [integerBytes_of_magnitude hmagnitude, if_pos hfirst]
      · rw [List.headD_cons, if_neg hhead] at hlength hvalue
        rw [integerBytes_of_magnitude (magnitude_eq_of_toNatBE hlength hhead hvalue)]
        apply (if_neg hsign).symm
  · rintro rfl
    obtain ⟨first, rest, h, hne⟩ := exists_magnitude k
    have hdigits : first :: rest = if (integerBytes k).headD 0 = 0 then (integerBytes k).tail
        else integerBytes k := by
      rw [integerBytes_of_magnitude h]
      split <;> simp [hne]
    apply (ofIntegerBytes_of_sign hdigits _ _ k).mpr
    · rw [← h]
      exact ⟨length_magnitude_le k, toNatBE_magnitude k⟩
    · rw [integerBytes_of_magnitude h]
      split
      · change ¬ (0 : UInt8) ≥ 0x80
        decide
      · assumption
    · rw [integerBytes_of_magnitude h]
      split
      · next hhigh => exact fun hpadded => absurd hhigh (UInt8.not_le.mpr hpadded.2.2)
      · exact fun hpadded => hne hpadded.2.1

/-! ### Sequences of two integers -/

/-- The bytes of a signature are as many as its two integers, and six. -/
theorem length_toDer (signature : Signature) :
  signature.toDer.length
    = 6 + (integerBytes signature.r).length + (integerBytes signature.s).length
  := by
  simp only [toDer, List.length_cons, List.length_append]
  omega

/-- A byte of a length below 256 tells the length. -/
theorem toNat_ofNat_of_lt {n : Nat} (h : n < 256) :
  (UInt8.ofNat n).toNat = n
  := by
  rw [UInt8.toNat_ofNat']
  apply Nat.mod_eq_of_lt h

/-- A signature is read back from its form, without the recovery id. -/
theorem ofDer_toDer (signature : Signature) :
  ofDer signature.toDer = .ok { signature with recoveryId := none }
  := by
  have hr := length_integerBytes_le signature.r
  have hs := length_integerBytes_le signature.s
  have hrpos := length_integerBytes_pos signature.r
  have hspos := length_integerBytes_pos signature.s
  have hlength := length_toDer signature
  have hrbyte : (UInt8.ofNat (integerBytes signature.r).length).toNat
      = (integerBytes signature.r).length := toNat_ofNat_of_lt (by omega)
  have hsbyte : (UInt8.ofNat (integerBytes signature.s).length).toNat
      = (integerBytes signature.s).length := toNat_ofNat_of_lt (by omega)
  have hrzero : UInt8.ofNat (integerBytes signature.r).length ≠ 0 := by
    intro h
    rw [h] at hrbyte
    apply absurd hrbyte.symm (Nat.ne_of_gt hrpos)
  have hszero : UInt8.ofNat (integerBytes signature.s).length ≠ 0 := by
    intro h
    rw [h] at hsbyte
    apply absurd hsbyte.symm (Nat.ne_of_gt hspos)
  have hrange : ¬ (UInt8.ofNat (integerBytes signature.r).length = 0
      ∨ (UInt8.ofNat (integerBytes signature.r).length).toNat
        > 6 + (integerBytes signature.r).length + (integerBytes signature.s).length - 7) := by
    rw [hrbyte]
    rintro (h | h)
    · apply hrzero h
    · omega
  rw [toDer] at hlength
  rw [toDer, ofDer, hlength, if_neg (by omega), if_neg (by decide),
    if_neg (by rw [toNat_ofNat_of_lt (by omega)]; omega), if_neg (by decide), if_neg hrange,
    hrbyte, List.take_left, List.drop_left, bind_of_eq_ok (ofIntegerBytes_eq_ok_iff.mpr rfl)]
  dsimp only
  rw [if_neg (by decide), if_neg (by simp [hszero, hsbyte]),
    bind_of_eq_ok (ofIntegerBytes_eq_ok_iff.mpr rfl)]

/-- An encoding with a fault is not read. -/
theorem ite_derError_eq_ok_iff
    {α : Type} {c : Prop} [Decidable c] {fault : DerFault} {x : Except Error α} {a : α} :
  (if c then derError fault else x) = .ok a ↔ ¬ c ∧ x = .ok a
  := by
  split
  · next hc =>
    constructor
    · rintro ⟨⟩
    · exact fun h => absurd hc h.1
  · next hc => rw [and_iff_right hc]

/-- What can be read is the form of what is read. -/
theorem toDer_of_ofDer {bytes : Bytes} {signature : Signature} (h : ofDer bytes = .ok signature) :
  signature.toDer = bytes ∧ signature.recoveryId = none
  := by
  rw [ofDer.eq_def] at h
  split at h
  · next mark length rMark rLength body =>
    obtain ⟨hshort, h⟩ := ite_derError_eq_ok_iff.mp h
    obtain ⟨hmark, h⟩ := ite_derError_eq_ok_iff.mp h
    obtain ⟨hlength, h⟩ := ite_derError_eq_ok_iff.mp h
    obtain ⟨hrMark, h⟩ := ite_derError_eq_ok_iff.mp h
    obtain ⟨hrange, h⟩ := ite_derError_eq_ok_iff.mp h
    obtain ⟨r, hr, h⟩ := bind_eq_ok_iff.mp h
    split at h
    · next sMark sLength sBytes hbody =>
      obtain ⟨hsMark, h⟩ := ite_derError_eq_ok_iff.mp h
      obtain ⟨hsrange, h⟩ := ite_derError_eq_ok_iff.mp h
      obtain ⟨s, hs, h⟩ := bind_eq_ok_iff.mp h
      cases h
      rw [ofIntegerBytes_eq_ok_iff] at hr hs
      obtain rfl := Decidable.not_not.mp hmark
      obtain rfl := Decidable.not_not.mp hrMark
      obtain rfl := Decidable.not_not.mp hsMark
      have hlength := Decidable.not_not.mp hlength
      have hrle := Nat.le_of_not_gt (not_or.mp hrange).2
      have hsLength := Decidable.not_not.mp (not_or.mp hsrange).2
      have hbytes : body = integerBytes r ++ 0x02 :: sLength :: integerBytes s := by
        rw [← hr, ← hs, ← hbody, List.take_append_drop]
      have hrLength : (integerBytes r).length = rLength.toNat := by
        rw [← hr, List.length_take]
        apply Nat.min_eq_left
        simp only [List.length_cons] at hrle
        omega
      have htotal : 4 + (integerBytes r).length + (integerBytes s).length = length.toNat := by
        rw [hlength, hbytes]
        simp only [List.length_cons, List.length_append]
        omega
      rw [toDer]
      dsimp only
      rw [htotal, hrLength, ← hs, hsLength, UInt8.ofNat_toNat, UInt8.ofNat_toNat, UInt8.ofNat_toNat,
        hs, ← hbytes]
      exact ⟨rfl, rfl⟩
    · cases h
  · cases h

/-- An encoding is read exactly if it is that of a signature. -/
theorem ofDer_eq_ok_iff {bytes : Bytes} {signature : Signature} :
  ofDer bytes = .ok signature ↔ signature.toDer = bytes ∧ signature.recoveryId = none
  := by
  constructor
  · apply toDer_of_ofDer
  · rintro ⟨rfl, hid⟩
    rw [ofDer_toDer, ← hid]

end Bitcoin.Signature
