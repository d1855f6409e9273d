import Bitcoin.Proofs.Bytes
import Bitcoin.Proofs.Signature.Der

/-!
# The compact form of signatures

The compact form of a signature is the 64 bytes of its scalars, and `Signature.ofCompact` reads
exactly what `Signature.toCompact` writes (`Signature.ofCompact_eq_ok_iff`).
-/

namespace Bitcoin

/-- The bytes of a scalar are the 32 bytes that denote it. -/
theorem Scalar.ofBytesUpTo32_eq_ok_iff_toBytes {bytes : Bytes} (h : bytes.length = 32)
    {k : Scalar} :
  ofBytesUpTo32 bytes = .ok k ↔ k.toBytes.toList = bytes
  := by
  rw [Signature.ofBytesUpTo32_eq_ok_iff, and_iff_right (Nat.le_of_eq h)]
  change _ ↔ Bytes.ofNatBE 32 k.val = bytes
  constructor
  · intro hk
    rw [← hk, ← h, Bytes.ofNatBE_toNatBE]
  · rintro rfl
    apply Bytes.toNatBE_ofNatBE_of_lt (Signature.scalar_lt k)

namespace Signature

theorem length_toCompact (signature : Signature) :
  signature.toCompact.length = 64
  := by
  rw [toCompact, List.length_append, FixedBytes.length_eq, FixedBytes.length_eq]

/-- Two scalars are a signature if neither of them is zero. -/
theorem ofScalars_eq_ok_iff {r s : Scalar} {signature : Signature} :
  ofScalars r s none = .ok signature
    ↔ signature.r.val = r ∧ signature.s.val = s ∧ signature.recoveryId = none
  := by
  obtain ⟨⟨r', hr'⟩, ⟨s', hs'⟩, id⟩ := signature
  rw [ofScalars]
  constructor
  · intro h
    split at h
    · split at h
      · cases h
        exact ⟨rfl, rfl, rfl⟩
      · cases h
    · cases h
  · rintro ⟨rfl, rfl, rfl⟩
    rw [dif_pos hr', dif_pos hs']

/-- A signature is read from its compact form, without the recovery id, and from no other bytes. -/
theorem ofCompact_eq_ok_iff {bytes : Bytes} {signature : Signature} :
  ofCompact bytes = .ok signature ↔ signature.toCompact = bytes ∧ signature.recoveryId = none
  := by
  by_cases hlength : bytes.length = 64
  · have hr : (bytes.take 32).length = 32 := by
      rw [List.length_take]
      omega
    have hs : (bytes.drop 32).length = 32 := by
      rw [List.length_drop]
      omega
    have hcompact : signature.toCompact = bytes
        ↔ signature.r.val.toBytes.toList = bytes.take 32
          ∧ signature.s.val.toBytes.toList = bytes.drop 32 := by
      rw [toCompact]
      constructor
      · rintro rfl
        have h := signature.r.val.toBytes.length_eq
        exact ⟨(List.take_left' h).symm, (List.drop_left' h).symm⟩
      · rintro ⟨hr, hs⟩
        rw [hr, hs, List.take_append_drop]
    rw [hcompact, ← Scalar.ofBytesUpTo32_eq_ok_iff_toBytes hr,
      ← Scalar.ofBytesUpTo32_eq_ok_iff_toBytes hs, ofCompact, if_neg (not_not.mpr hlength),
      bind_eq_ok_iff]
    constructor
    · rintro ⟨r, hr, h⟩
      obtain ⟨s, hs, h⟩ := bind_eq_ok_iff.mp h
      obtain ⟨rfl, rfl, hid⟩ := ofScalars_eq_ok_iff.mp h
      exact ⟨⟨hr, hs⟩, hid⟩
    · rintro ⟨⟨hr, hs⟩, hid⟩
      refine ⟨_, hr, ?_⟩
      rw [bind_of_eq_ok hs]
      apply ofScalars_eq_ok_iff.mpr ⟨rfl, rfl, hid⟩
  · rw [ofCompact, if_pos hlength]
    constructor
    · rintro ⟨⟩
    · rintro ⟨rfl, _⟩
      apply absurd signature.length_toCompact hlength

end Signature

end Bitcoin
