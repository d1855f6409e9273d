import Bitcoin.Key.Public
import Bitcoin.Proofs.Bytes
import Bitcoin.Proofs.Curve.Residue
import Mathlib.FieldTheory.Finite.Basic
import Mathlib.Tactic.LinearCombination
import Mathlib.Tactic.Ring

/-!
# Points are read back from their bytes

The power by which a square root is computed is one for every square, because the prime is
three modulo four. So both encodings of a point are read back
(`PublicKey.decodePoint?_compressed`, `PublicKey.decodePoint?_uncompressed`). As no point lies on
the axis (`Point.y_ne_zero`), a point has the parity it is read with, and the bytes of the shorter
encoding are those of the point that is read (`PublicKey.compressed_of_decodePoint?`).
-/

namespace Bitcoin

namespace Coordinate

/-- The power that `sqrt?` computes is a root of every square. -/
theorem pow_mul_pow_of_square {a b : ZMod Curve.prime} (h : b * b = a) :
  a ^ ((Curve.prime + 1) / 4) * a ^ ((Curve.prime + 1) / 4) = a
  := by
  by_cases hb : b = 0
  · have ha : a = 0 := by rw [← h, hb, mul_zero]
    rw [ha, zero_pow (by decide), mul_zero]
  · have hpower : ∀ e : Nat, (b * b) ^ e * (b * b) ^ e = b ^ (2 * (e + e)) := by
      intro e
      ring
    have hexponent : 2 * ((Curve.prime + 1) / 4 + (Curve.prime + 1) / 4)
        = (Curve.prime - 1) + 2 := by decide
    rw [← h, hpower, hexponent, pow_add, ZMod.pow_card_sub_one_eq_one hb, one_mul, pow_two]

/-- A square has a root, which is the given one or its negative. -/
theorem sqrt?_of_square {x y : Coordinate} (h : y * y = x) :
  ∃ root, sqrt? x = some root ∧ (root = y ∨ root = -y)
  := by
  have hpower : residue (Fin.ofNat Curve.prime
      (Modular.power Curve.prime x.val 254 ((Curve.prime + 1) / 4)))
      = residue x ^ ((Curve.prime + 1) / 4) := by
    rw [Modular.power_eq (by decide), residue_finOfNat, ZMod.natCast_mod, Nat.cast_pow, residue]
  have hsquare : residue y * residue y = residue x := by rw [← residue_mul, h]
  have hroot : Fin.ofNat Curve.prime
      (Modular.power Curve.prime x.val 254 ((Curve.prime + 1) / 4))
      * Fin.ofNat Curve.prime (Modular.power Curve.prime x.val 254 ((Curve.prime + 1) / 4))
      = x := by
    apply residue_injective
    rw [residue_mul, hpower, pow_mul_pow_of_square hsquare]
  refine ⟨_, if_pos hroot, ?_⟩
  have hsame := congrArg residue (hroot.trans h.symm)
  rw [residue_mul, residue_mul] at hsame
  rcases mul_self_eq_mul_self_iff.mp hsame with hroot | hroot
  · exact .inl (residue_injective hroot)
  · rw [← residue_neg] at hroot
    exact .inr (residue_injective hroot)

/-- A coordinate and its negative are of different parity. -/
theorem isOdd_neg {y : Coordinate} (hy : y ≠ 0) :
  (-y).isOdd = !y.isOdd
  := by
  have hpos : 0 < y.val := Nat.pos_of_ne_zero fun h => hy (Fin.ext h)
  have hval : (-y).val = Curve.prime - y.val := by
    rw [Fin.neg_def]
    apply Nat.mod_eq_of_lt (by omega)
  have hlt := y.isLt
  have hprime : Curve.prime % 2 = 1 := by decide
  rw [isOdd, isOdd, hval]
  rcases Nat.mod_two_eq_zero_or_one y.val with h | h
  · rw [h, decide_eq_true (by omega)]
    rfl
  · rw [h, decide_eq_false (by omega)]
    rfl

theorem ofNat?_val (x : Coordinate) :
  ofNat? x.val = some x
  := dif_pos x.isLt

/-- Only numbers below the modulus are coordinates. -/
theorem ofNat?_eq_some {n : Nat} {x : Coordinate} (h : ofNat? n = some x) :
  x.val = n
  := by
  rw [ofNat?] at h
  split at h
  · cases h
    rfl
  · cases h

/-- The bytes of a coordinate denote it. -/
theorem toNatBE_toBytes (x : Coordinate) :
  Bytes.toNatBE x.toBytes.toList = x.val
  := Bytes.toNatBE_ofNatBE_of_lt (Nat.lt_trans x.isLt (by decide))

/-- A coordinate has the bytes that denote it, if there are 32 of them. -/
theorem toBytes_of_val_eq {x : Coordinate} {bytes : Bytes} (hlength : bytes.length = 32)
    (h : x.val = Bytes.toNatBE bytes) :
  x.toBytes.toList = bytes
  := by
  change Bytes.ofNatBE 32 x.val = bytes
  rw [h, ← hlength, Bytes.ofNatBE_toNatBE]

/-- A cube has the power one to a third of the number of units, and `-7` has another. -/
theorem cube_ne_neg_seven (x : ZMod Curve.prime) :
  x ^ 3 ≠ -7
  := by
  have hseven : (-7 : ZMod Curve.prime) = (Curve.prime - 7 : Nat) := by
    rw [Nat.cast_sub (by decide), ZMod.natCast_self, zero_sub]
    rfl
  rw [hseven]
  intro hcube
  have hx : x ≠ 0 := by
    rintro rfl
    rw [zero_pow (by decide), eq_comm, ZMod.natCast_eq_zero_iff] at hcube
    revert hcube
    decide
  have hone : ((Curve.prime - 7 : Nat) : ZMod Curve.prime) ^ ((Curve.prime - 1) / 3) = 1 := by
    have e : 3 * ((Curve.prime - 1) / 3) = Curve.prime - 1 := by decide
    rw [← hcube, ← pow_mul, e, ZMod.pow_card_sub_one_eq_one hx]
  have hcomputed : ∀ e, ((Curve.prime - 7 : Nat) : ZMod Curve.prime) ^ e = 1 → e < 2 ^ 255 →
      Modular.power Curve.prime (Curve.prime - 7) 255 e = 1 := by
    intro e he hlt
    rw [← Nat.cast_pow, ← Nat.cast_one, ZMod.natCast_eq_natCast_iff] at he
    rw [Modular.power_eq hlt, he]
    rfl
  have hpower := hcomputed _ hone (by decide)
  revert hpower
  decide +kernel

end Coordinate

namespace Point

/-- No point lies on the axis. -/
theorem y_ne_zero {x y : Coordinate} (h : y * y = x * x * x + 7) :
  y ≠ 0
  := by
  rintro rfl
  apply Coordinate.cube_ne_neg_seven (residue x)
  have hcurve := congrArg residue h
  simp only [residue_add, residue_mul, residue_ofNat] at hcurve
  linear_combination -hcurve

/-- A point is found from its first coordinate and the parity of its second one. -/
theorem lift?_val {x y : Coordinate} (h : y * y = x * x * x + 7) :
  lift? x.val y.isOdd = some (.affine x y h)
  := by
  obtain ⟨root, hroot, hsign⟩ := Coordinate.sqrt?_of_square h
  have hcurve : root * root = x * x * x + 7 := by
    rcases hsign with rfl | rfl
    · apply h
    · apply neg_onCurve h
  rw [lift?, Coordinate.ofNat?_val, Option.bind_eq_bind, Option.bind_some, hroot,
    Option.bind_some, dif_pos hcurve]
  rcases hsign with rfl | rfl
  · rw [if_pos rfl]
  · rw [Coordinate.isOdd_neg (y_ne_zero h), if_neg (by simp)]
    simp [neg]

/-- The point has the coordinate and the parity that it is looked up with. -/
theorem lift?_eq_some {n : Nat} {odd : Bool} {p : Point} (h : lift? n odd = some p) :
  ∃ x y onCurve, p = .affine x y onCurve ∧ x.val = n ∧ y.isOdd = odd
  := by
  rw [lift?, Option.bind_eq_bind, Option.bind_eq_some_iff] at h
  obtain ⟨x, hx, h⟩ := h
  rw [Option.bind_eq_some_iff] at h
  obtain ⟨y, -, h⟩ := h
  split at h
  · next hcurve =>
    cases h
    split
    · next hodd => exact ⟨x, y, hcurve, rfl, Coordinate.ofNat?_eq_some hx, hodd⟩
    · next hodd =>
      refine ⟨x, -y, neg_onCurve hcurve, rfl, Coordinate.ofNat?_eq_some hx, ?_⟩
      rw [Coordinate.isOdd_neg (y_ne_zero hcurve), Bool.not_eq]
      exact hodd
  · cases h

/-- The shorter encoding is one of two marks and 32 bytes. -/
theorem exists_compressed {p : Point} (hp : p ≠ .infinity) :
  ∃ header rest, p.compressed = header :: rest ∧ (header = 0x02 ∨ header = 0x03)
    ∧ rest.length = 32
  := by
  cases p with
  | infinity => apply absurd rfl hp
  | affine x y h =>
    use if y.isOdd then 0x03 else 0x02, x.toBytes.toList, rfl
    refine ⟨?_, x.toBytes.length_eq⟩
    split
    · exact .inr rfl
    · exact .inl rfl

theorem ofCoordinates?_val {x y : Coordinate} (h : y * y = x * x * x + 7) :
  ofCoordinates? x.val y.val = some (.affine x y h)
  := by
  rw [ofCoordinates?, Coordinate.ofNat?_val, Coordinate.ofNat?_val, Option.bind_eq_bind,
    Option.bind_some, Option.bind_some, dif_pos h]

end Point

namespace PublicKey

/-- A point is read back from its compressed form. -/
theorem decodePoint?_compressed {p : Point} (hp : p ≠ .infinity) :
  decodePoint? p.compressed = some p
  := by
  cases p with
  | infinity => apply absurd rfl hp
  | affine x y h =>
    rw [Point.compressed]
    split
    · next hodd =>
      rw [decodePoint?, if_neg (by decide), Coordinate.toNatBE_toBytes, ← Point.lift?_val h, hodd]
      rfl
    · next heven =>
      rw [Bool.not_eq_true] at heven
      rw [decodePoint?, if_neg (by decide), Coordinate.toNatBE_toBytes, ← Point.lift?_val h, heven]
      rfl

/-- The shorter encoding of a point is the only one it is read from. -/
theorem compressed_of_decodePoint? {header : UInt8} {rest : Bytes} {p : Point}
    (hheader : header = 0x02 ∨ header = 0x03) (hlength : rest.length = 32)
    (h : decodePoint? (header :: rest) = some p) :
  p ≠ .infinity ∧ p.compressed = header :: rest
  := by
  rw [decodePoint?, if_neg (by rcases hheader with rfl | rfl <;> decide)] at h
  obtain ⟨x, y, hcurve, rfl, hx, hodd⟩ := Point.lift?_eq_some h
  refine ⟨by rintro ⟨⟩, ?_⟩
  rw [Point.compressed, hodd, Coordinate.toBytes_of_val_eq hlength hx]
  rcases hheader with rfl | rfl
  · rfl
  · rfl

/-- A point is read back from its uncompressed form. -/
theorem decodePoint?_uncompressed {p : Point} (hp : p ≠ .infinity) :
  decodePoint? p.uncompressed = some p
  := by
  cases p with
  | infinity => apply absurd rfl hp
  | affine x y h =>
    have hx : x.toBytes.toList.length = 32 := x.toBytes.length_eq
    rw [Point.uncompressed, decodePoint?, if_pos rfl, List.take_left' hx, List.drop_left' hx,
      Coordinate.toNatBE_toBytes, Coordinate.toNatBE_toBytes, Point.ofCoordinates?_val h]

/-- Both forms of a key are read back as its point. -/
theorem decodePoint?_toBytes {key : PublicKey} (hkey : key.point ≠ .infinity) (compressed : Bool) :
  decodePoint? (key.toBytes compressed) = some key.point
  := by
  cases compressed with
  | false => apply decodePoint?_uncompressed hkey
  | true => apply decodePoint?_compressed hkey

/-- Both forms of a public key are recognised as such. -/
theorem hasKeyForm_toBytes {key : PublicKey} (hkey : key.point ≠ .infinity) (compressed : Bool) :
  hasKeyForm (key.toBytes compressed) = true
  := by
  obtain ⟨p, network⟩ := key
  cases p with
  | infinity => apply absurd rfl hkey
  | affine x y h =>
    have hx : x.toBytes.toList.length = 32 := x.toBytes.length_eq
    have hy : y.toBytes.toList.length = 32 := y.toBytes.length_eq
    cases compressed with
    | false => simp [toBytes, Point.uncompressed, hasKeyForm, hx, hy]
    | true => cases hodd : y.isOdd <;> simp [toBytes, Point.compressed, hasKeyForm, hx, hodd]

end PublicKey

end Bitcoin
