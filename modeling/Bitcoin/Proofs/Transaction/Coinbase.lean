import Bitcoin.Proofs.Script.Integer
import Bitcoin.Transaction.Coinbase

/-!
# Reading pushed integers back

An integer that a script pushes is found on the stack when the script is run, and by a coinbase
input at the start of its script, whatever stands behind it (`Coinbase.leadingNumber?_pushInt`).
So the height of a block is read back from the input that was built for it.
-/

namespace Bitcoin

namespace Coinbase

/-! ### The number in front of a script -/

theorem leadingNumber?_small {k : Nat} (hpos : 1 ≤ k) (hle : k ≤ 16) (data : Bytes) :
  leadingNumber? (UInt8.ofNat (0x50 + k) :: data) = some (k : Int)
  := by
  have hbyte : (UInt8.ofNat (0x50 + k)).toNat = 0x50 + k := by
    rw [UInt8.toNat_ofNat']
    omega
  have hzero : ¬ UInt8.ofNat (0x50 + k) = 0 := by
    rw [← UInt8.toNat_inj, hbyte]
    exact Nat.ne_of_gt (Nat.add_pos_left (by decide) k)
  have hsmall : 0x51 ≤ UInt8.ofNat (0x50 + k) ∧ UInt8.ofNat (0x50 + k) ≤ 0x60 := by
    rw [UInt8.le_iff_toNat_le, UInt8.le_iff_toNat_le, hbyte]
    exact ⟨Nat.add_le_add_left hpos 0x50, Nat.add_le_add_left hle 0x50⟩
  rw [leadingNumber?, if_neg hzero, if_pos hsmall, hbyte]
  congr 1
  omega

/-- A number behind its length ends where the length says. -/
theorem leadingNumber?_data {number : Bytes} (hne : number ≠ []) (hle : number.length ≤ 5)
    (data : Bytes) :
  leadingNumber? (UInt8.ofNat number.length :: (number ++ data))
    = some (ScriptNumber.value number)
  := by
  have hbyte : (UInt8.ofNat number.length).toNat = number.length := by
    rw [UInt8.toNat_ofNat']
    omega
  have hzero : ¬ UInt8.ofNat number.length = 0 := by
    rw [← UInt8.toNat_inj, hbyte]
    exact Nat.ne_of_gt (List.length_pos_iff.mpr hne)
  have hnot : ¬ (0x51 ≤ UInt8.ofNat number.length ∧ UInt8.ofNat number.length ≤ 0x60) := by
    rw [UInt8.le_iff_toNat_le, hbyte]
    exact fun h => absurd (Nat.le_trans h.1 hle) (by decide)
  have hdata : UInt8.ofNat number.length ≤ 0x05 := by
    rw [UInt8.le_iff_toNat_le, hbyte]
    exact hle
  rw [leadingNumber?, if_neg hzero, if_neg hnot, if_pos hdata, hbyte, List.take_left]
  dsimp only
  rw [if_pos rfl]

/-- A number that is not negative is found in front of any data, in whatever form it was pushed. -/
theorem leadingNumber?_pushInt {n : Int} (hnonneg : 0 ≤ n) (h : 2 * n.natAbs < 256 ^ 5)
    (data : Bytes) :
  leadingNumber? (Script.pushInt n ++ data) = some n
  := by
  obtain ⟨t, ht, hencode⟩ := Script.exists_pushesInt n
  rw [← hencode]
  cases ht with
  | negativeOne => cases hnonneg
  | zero => rfl
  | small hpos hle =>
    rw [Token.encode, Script.toByte_countOpcode hpos hle, List.singleton_append,
      leadingNumber?_small hpos hle]
  | data hlarge =>
    rw [Token.encode_inline, List.cons_append,
      leadingNumber?_data (ScriptNumber.encode_ne_nil (by omega))
        (ScriptNumber.length_encode_le_iff.mpr h),
      ScriptNumber.value_encode]

/-! ### Heights -/

/-- A height is read back in front of any data. -/
theorem leadingHeight?_pushInt (height : UInt32) (data : Bytes) :
  leadingHeight? (Script.pushInt height.toNat ++ data) = some height
  := by
  have hlt := height.toNat_lt
  have hnumber : leadingNumber? (Script.pushInt height.toNat ++ data) = some (height.toNat : Int) :=
    leadingNumber?_pushInt (Int.natCast_nonneg _) (by omega) data
  have hrange : 0 ≤ (height.toNat : Int) ∧ (height.toNat : Int) < UInt32.size :=
    ⟨Int.natCast_nonneg _, Int.ofNat_lt.mpr height.toNat_lt_size⟩
  rw [leadingHeight?, bind_of_eq_some hnumber, if_pos hrange, Int.toNat_natCast,
    UInt32.ofNat_toNat]

theorem bytes_ofHeight (height : UInt32) (data : Bytes) (sequence : UInt32)
    {blockVersion : UInt32} (h : blockVersion ≠ 1) :
  (ofHeight height data sequence blockVersion).input.script.bytes
    = Script.pushInt height.toNat ++ data
  := by
  rw [ofHeight]
  dsimp only [Script.bytes]
  rw [if_neg h]

/-- The input that is built for a height is recognised, with this height. -/
theorem ofInput_ofHeight (height : UInt32) (data : Bytes) (sequence : UInt32)
    {blockVersion : UInt32} (h : blockVersion ≠ 1) :
  ofInput (ofHeight height data sequence blockVersion).input
    = .ok (ofHeight height data sequence blockVersion)
  := by
  have hcoinbase : (ofHeight height data sequence blockVersion).input.isCoinbase = true :=
    decide_eq_true rfl
  rw [ofInput, if_pos hcoinbase, bytes_ofHeight height data sequence h, leadingHeight?_pushInt]
  rfl

end Coinbase

/-- An integer that has a word of 64 bits, the least of these apart, is pushed by one token, and
to run it puts one item on the stack that is read as the integer. A height is pushed in front of
any data whatever, and is read back from there. -/
theorem Script.pushInt_read_back :
  (∀ n : Int, n.natAbs < 2 ^ 63 →
    ∃ (t : Token) (item : Item), (encoded (pushInt n)).tokens = .ok [t] ∧ item.toInt 8 = .ok n
      ∧ ∀ m : Machine, m.stopped = false → m.size ≤ m.limits.stackSize →
        Step.runScript (.encoded (pushInt n)) m = .ok () { m with stack := item :: m.stack })
    ∧ ∀ (height : UInt32) (data : Bytes) (sequence blockVersion : UInt32), blockVersion ≠ 1 →
      ∃ c : Coinbase,
        Coinbase.ofInput (Coinbase.ofHeight height data sequence blockVersion).input = .ok c
        ∧ c.height? = some height
        ∧ c.input.script.bytes = pushInt height.toNat ++ data
        ∧ c.input.sequence = sequence
  := by
  refine ⟨fun n hn => exists_runScript_pushInt hn, ?_⟩
  intro height data sequence blockVersion h
  refine ⟨_, Coinbase.ofInput_ofHeight height data sequence h, rfl, ?_, rfl⟩
  exact Coinbase.bytes_ofHeight height data sequence h

/-- A negative number that needs two bytes for its sign, and the height of the first push of three
bytes in front of data that could be read as a longer push. -/
theorem Script.pushInt_read_back_signed :
  let n : Int := -0x80
  let m : Machine := .initial
  let data : Bytes := [0x05, 0xff]
  (∃ item : Item, item.toInt 8 = .ok n
      ∧ Step.runScript (.encoded (pushInt n)) m = .ok () { m with stack := [item] })
    ∧ (2 : UInt32) ≠ 1
    ∧ ∃ c : Coinbase, Coinbase.ofInput (Coinbase.ofHeight 0x8000 data 0 2).input = .ok c
      ∧ c.height? = some 0x8000
  := by
  intro n m data
  obtain ⟨hpush, hheight⟩ := Script.pushInt_read_back
  obtain ⟨_, item, _, hitem, hrun⟩ := hpush n (by decide)
  obtain ⟨c, hc, hfound, _⟩ := hheight 0x8000 data 0 2 (by decide)
  exact ⟨⟨item, hitem, hrun m rfl (by decide)⟩, by decide, c, hc, hfound⟩

end Bitcoin
