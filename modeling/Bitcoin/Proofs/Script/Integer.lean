import Bitcoin.Proofs.Machine.Flat
import Bitcoin.Proofs.Script.Number

/-!
# Pushes of integers

An integer is pushed by an opcode of its own if it has one, and else by a push of its shortest
form (`Token.PushesInt`). The bytes that push an integer are those of one such token, and to run
them is to put an item on the stack that is read as the integer.
-/

namespace Bitcoin

/-- The token that pushes an integer. -/
inductive Token.PushesInt : Int → Token → Prop where
  | negativeOne : PushesInt (-1) (.op .negativeOne)
  | zero : PushesInt 0 (.op .zero)
  | small {n : Nat} (hpos : 1 ≤ n) (hle : n ≤ 16) : PushesInt n (.op (Script.countOpcode n))
  | data {n : Int} (h : n < -1 ∨ 16 < n) : PushesInt n (.push ⟨.inline, ScriptNumber.encode n⟩)

theorem ScriptNumber.encode_ne_nil {n : Int} (h : n ≠ 0) :
  encode n ≠ []
  := by
  intro hnil
  have hvalue := value_encode n
  rw [hnil] at hvalue
  exact h hvalue.symm

/-- The bytes that push an integer are those of a token. -/
theorem Script.exists_pushesInt (n : Int) :
  ∃ t : Token, t.PushesInt n ∧ t.encode = pushInt n
  := by
  rw [pushInt]
  split
  · next h =>
    subst h
    exact ⟨_, .negativeOne, rfl⟩
  · next hnegative =>
    split
    · next h =>
      subst h
      exact ⟨_, .zero, rfl⟩
    · next hzero =>
      split
      · next h =>
        obtain ⟨k, rfl⟩ := Int.eq_ofNat_of_zero_le (Int.le_trans (by decide) h.1)
        have hpos : 1 ≤ k := by omega
        have hle : k ≤ 16 := by omega
        refine ⟨_, .small hpos hle, ?_⟩
        rw [Token.encode, toByte_countOpcode hpos hle, Int.toNat_natCast]
      · next hsmall => exact ⟨_, .data (by omega), rfl⟩

namespace Token.PushesInt

variable {n : Int} {t : Token}

/-- A token that pushes a number can be read from its bytes. -/
theorem readable (h : t.PushesInt n) (hn : n.natAbs < 2 ^ 63) :
  t.Readable
  := by
  cases h with
  | negativeOne | zero => rfl
  | @small k _ _ => exact (Script.countOpcode_plain k).1
  | data h =>
    have hlength : (ScriptNumber.encode n).length ≤ 75 :=
      Nat.le_trans (ScriptNumber.length_encode_le_iff.mpr (by omega)) (by decide : 8 ≤ 75)
    exact ⟨hlength, fun _ => ScriptNumber.encode_ne_nil (by omega)⟩

theorem isDelimiter_eq_false (h : t.PushesInt n) :
  t.isDelimiter = false
  := by
  cases h with
  | negativeOne | zero | data _ => rfl
  | @small k _ _ => exact (Script.countOpcode_plain k).2.1

/-- The token puts an item on the stack that is read as the integer. -/
theorem exists_pushes (h : t.PushesInt n) (hn : n.natAbs < 2 ^ 63) :
  ∃ item : Item, t.Pushes item ∧ item.toInt 8 = .ok n
  := by
  cases h with
  | negativeOne => exact ⟨_, .constant rfl, rfl⟩
  | zero => exact ⟨_, .constant rfl, rfl⟩
  | small hpos hle =>
    exact ⟨_, Step.pushes_countOpcode hpos hle,
      Item.toInt_number hn (ScriptNumber.length_encode_le_iff.mpr (by omega))⟩
  | data h => exact ⟨_, .data _, ScriptNumber.decode_encode (by omega) (Nat.le_refl 8)⟩

end Token.PushesInt

namespace Script

variable {n : Int}

/-- The bytes that push an integer are taken apart into one token. -/
theorem exists_program_pushInt (hn : n.natAbs < 2 ^ 63) :
  ∃ t : Token, t.PushesInt n ∧ (encoded (pushInt n)).program = .ok (.flat [t])
  := by
  obtain ⟨t, ht, hencode⟩ := exists_pushesInt n
  have hprogram := program_encoded_flat (List.forall_mem_singleton.mpr (ht.readable hn))
    (List.forall_mem_singleton.mpr ht.isDelimiter_eq_false)
  rw [Token.encodeAll_cons, Token.encodeAll_nil, List.append_nil, hencode] at hprogram
  exact ⟨t, ht, hprogram⟩

/-- To run the bytes that push an integer puts one item on the stack. -/
theorem exists_runScript_pushInt (hn : n.natAbs < 2 ^ 63) :
  ∃ (t : Token) (item : Item), (encoded (pushInt n)).tokens = .ok [t] ∧ item.toInt 8 = .ok n
    ∧ ∀ m : Machine, m.stopped = false → m.size ≤ m.limits.stackSize →
      Step.runScript (.encoded (pushInt n)) m = .ok () { m with stack := item :: m.stack }
  := by
  obtain ⟨t, ht, hprogram⟩ := exists_program_pushInt hn
  obtain ⟨item, hpushes, hitem⟩ := ht.exists_pushes hn
  refine ⟨t, item, ?_, hitem, fun m hm hsize => ?_⟩
  · exact tokens_eq_ok_iff.mpr ⟨_, hprogram, Program.tokens_flat [t]⟩
  · rw [Step.runScript_eq_run hm hprogram, Step.run_flat_constant hpushes hm hsize,
      Step.run_flat_nil]

end Script

end Bitcoin
