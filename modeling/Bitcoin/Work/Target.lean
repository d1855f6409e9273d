import Bitcoin.Work.UInt256

/-!
# Compact targets

A block's hash must not exceed a target of 256 bits. A block gives its target in 32 bits: a
size in bytes, and the three most significant bytes. `compact` keeps these bytes, and
`ofCompact` reads such a word; the top bit of the three bytes is a sign, so that `compact`
moves a value that would set it down by a byte.
-/

namespace Bitcoin.Target

/-- The compact form of a target. -/
def compact (target : UInt256) : UInt32 :=
  let size := (target.bits + 7) / 8
  let mantissa : UInt64 :=
    if size ≤ 3 then target.w₀ <<< UInt64.ofNat (8 * (3 - size))
    else (target.shiftRight (8 * (size - 3))).w₀
  let head := mantissa.toUInt32
  if head &&& 0x00800000 ≠ 0 then (head >>> 8) ||| (UInt32.ofNat (size + 1) <<< 24)
  else head ||| (UInt32.ofNat size <<< 24)

/-- The target in a compact form. -/
def ofCompact (bits : UInt32) : Except Error UInt256 :=
  let exponent := (bits >>> 24).toNat
  let mantissa := bits &&& 0x007fffff
  if mantissa = 0 then .ok UInt256.zero
  else if bits &&& 0x00800000 ≠ 0 then .error (.domain (.negativeTarget bits))
  else if exponent ≤ 3 then
    .ok (UInt256.ofUInt32 (mantissa >>> UInt32.ofNat (8 * (3 - exponent))))
  else
    let shift := 8 * (exponent - 3)
    if shift + (mantissa.toNat.log2 + 1) > 256 then .error (.domain (.targetOverflow bits))
    else .ok ((UInt256.ofUInt32 mantissa).shiftLeft shift)

/-- The easiest target. -/
def maximum : UInt256 :=
  ⟨0, 0, 0, 0x00000000ffff0000⟩

end Bitcoin.Target
