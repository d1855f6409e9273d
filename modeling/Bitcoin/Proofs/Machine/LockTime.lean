import Bitcoin.Proofs.Machine.Alike
import Bitcoin.Proofs.Machine.Step

/-!
# Lock times

A script can demand that its output is not spent before a lock time. `Spending.MeetsLockTime`
says what is asked of the input that spends it, and `Step.execute_checkLockTimeVerify_iff` that
the opcode asks for just this of the number on top of the stack, in whatever form the number
stands there, and that it leaves the stack as it is. An input that meets a lock time meets all
earlier ones of its kind.
-/

namespace Bitcoin

/-- Whether two lock times are both heights of blocks, or both times. -/
def SameKind (a b : Int) : Prop :=
  (a < 500000000 ∧ b < 500000000) ∨ (500000000 ≤ a ∧ 500000000 ≤ b)

namespace Spending

variable {spending : Spending} {demanded earlier : Int}

/-- Whether an input meets a lock time: the transaction has one of the same kind that is not
earlier, and the input is not final, so that the lock time of the transaction is in force. -/
structure MeetsLockTime (spending : Spending) (demanded : Int) : Prop where
  nonneg : 0 ≤ demanded
  sameKind : SameKind demanded spending.transaction.lockTime.toNat
  le_lockTime : demanded ≤ spending.transaction.lockTime.toNat
  not_final : spending.input.sequence ≠ 0xffffffff

/-- The test for the time of a spending is what is demanded of it. -/
theorem lockTimeMet_iff :
  spending.lockTimeMet demanded = true ↔ spending.MeetsLockTime demanded
  := by
  have hkind : (demanded < 500000000 ↔ (spending.transaction.lockTime.toNat : Int) < 500000000)
      ↔ SameKind demanded spending.transaction.lockTime.toNat := by
    rw [SameKind]
    omega
  simp only [lockTimeMet, Bool.and_eq_true, decide_eq_true_eq, bne_iff_ne]
  constructor
  · rintro ⟨⟨⟨hnonneg, hsame⟩, hle⟩, hfinal⟩
    exact ⟨hnonneg, hkind.mp hsame, hle, hfinal⟩
  · rintro ⟨hnonneg, hsame, hle, hfinal⟩
    exact ⟨⟨⟨hnonneg, hkind.mpr hsame⟩, hle⟩, hfinal⟩

/-- What meets a demand meets each smaller one of its kind. -/
theorem MeetsLockTime.of_le (h : spending.MeetsLockTime demanded) (hnonneg : 0 ≤ earlier)
    (hle : earlier ≤ demanded) (hkind : SameKind earlier demanded) :
  spending.MeetsLockTime earlier
  := by
  refine ⟨hnonneg, ?_, Int.le_trans hle h.le_lockTime, h.not_final⟩
  have hsame := h.sameKind
  rw [SameKind] at hkind hsame ⊢
  omega

/-- A lock time that is met has at most 32 bits, and so a form of at most five bytes. -/
theorem MeetsLockTime.length_encode_le (h : spending.MeetsLockTime demanded) :
  (ScriptNumber.encode demanded).length ≤ 5
  := by
  have hlockTime := spending.transaction.lockTime.toNat_lt
  have hnonneg := h.nonneg
  have hle := h.le_lockTime
  apply ScriptNumber.length_encode_le_iff.mpr
  omega

end Spending

namespace Step

variable {m m' : Machine} {spending : Spending} {subScript : Script} {item : Item}
  {rest : List Item}

/-- The top item is read with a limit of its own. -/
theorem checkLockTime_of_cons (hspending : m.spending? = some spending)
    (hscript : m.subScript? = some subScript) (hstack : m.stack = item :: rest) :
  checkLockTime m
    = (ofExcept (ScriptNumber.decode item.toBytes 5) >>= fun demanded =>
        if !spending.lockTimeMet demanded then stop else pure ()) m
  := by
  have hneed : 1 ≤ m.stack.length := by
    rw [hstack]
    exact Nat.succ_pos _
  have htop : m.stack.headD (.bytes []) = item := by
    rw [hstack]
    rfl
  rw [checkLockTime, bind_of_ok (context_eq hspending hscript)]
  dsimp only
  rw [bind_of_ok (need_of_le hneed)]
  change (ofExcept ((m.stack.headD (.bytes [])).toInt 5) >>= _) m = _
  rw [htop, Item.toInt_eq (by decide) (by decide)]

/-- Operands of more than five bytes are refused. -/
theorem checkLockTime_of_lt (hspending : m.spending? = some spending)
    (hscript : m.subScript? = some subScript) (hstack : m.stack = item :: rest)
    (h : 5 < item.toBytes.length) :
  checkLockTime m = .error (.execution (.numberTooLong item.toBytes.length 5)) m
  := by
  rw [checkLockTime_of_cons hspending hscript hstack, ScriptNumber.decode, if_pos h]
  rfl

/-- A demand that is met changes nothing, and one that is not ends the execution. -/
theorem checkLockTime_of_le (hspending : m.spending? = some spending)
    (hscript : m.subScript? = some subScript) (hstack : m.stack = item :: rest)
    (h : item.toBytes.length ≤ 5) :
  (spending.MeetsLockTime (ScriptNumber.value item.toBytes) → checkLockTime m = .ok () m)
    ∧ (¬ spending.MeetsLockTime (ScriptNumber.value item.toBytes) →
      checkLockTime m = .ok () { m with stopped := true })
  := by
  have heval : checkLockTime m
      = (if !spending.lockTimeMet (ScriptNumber.value item.toBytes) then stop else pure () :
          Step Unit) m := by
    rw [checkLockTime_of_cons hspending hscript hstack, ScriptNumber.decode_of_le h (by decide)]
    rfl
  rw [heval, ← Spending.lockTimeMet_iff]
  constructor
  · intro hmet
    rw [hmet]
    rfl
  · intro hnot
    rw [Bool.eq_false_iff.mpr hnot]
    rfl

/-- Nothing but the length of the operand causes an error. -/
theorem exists_checkLockTime_error_iff (hspending : m.spending? = some spending)
    (hscript : m.subScript? = some subScript) (hstack : m.stack = item :: rest) :
  (∃ e m', checkLockTime m = .error e m') ↔ 5 < item.toBytes.length
  := by
  constructor
  · rintro ⟨e, m', he⟩
    by_contra hle
    obtain ⟨hmet, hnot⟩ := checkLockTime_of_le hspending hscript hstack (Nat.not_lt.mp hle)
    by_cases h : spending.MeetsLockTime (ScriptNumber.value item.toBytes)
    · cases he.symm.trans (hmet h)
    · cases he.symm.trans (hnot h)
  · intro hlt
    exact ⟨_, _, checkLockTime_of_lt hspending hscript hstack hlt⟩

/-- Either nothing happens or the execution ends, as the demand is met or not. -/
theorem checkLockTime_eq_ok_iff (hspending : m.spending? = some spending)
    (hscript : m.subScript? = some subScript) (hstack : m.stack = item :: rest) :
  checkLockTime m = .ok () m'
    ↔ item.toBytes.length ≤ 5
      ∧ ((spending.MeetsLockTime (ScriptNumber.value item.toBytes) ∧ m' = m)
        ∨ (¬ spending.MeetsLockTime (ScriptNumber.value item.toBytes)
          ∧ m' = { m with stopped := true }))
  := by
  constructor
  · intro hok
    have hle : item.toBytes.length ≤ 5 := by
      by_contra hlt
      have herror := checkLockTime_of_lt hspending hscript hstack (Nat.not_le.mp hlt)
      cases hok.symm.trans herror
    obtain ⟨hmet, hnot⟩ := checkLockTime_of_le hspending hscript hstack hle
    refine ⟨hle, ?_⟩
    by_cases h : spending.MeetsLockTime (ScriptNumber.value item.toBytes)
    · cases hok.symm.trans (hmet h)
      exact .inl ⟨h, rfl⟩
    · cases hok.symm.trans (hnot h)
      exact .inr ⟨h, rfl⟩
  · rintro ⟨hle, ⟨h, rfl⟩ | ⟨h, rfl⟩⟩
    · exact (checkLockTime_of_le hspending hscript hstack hle).1 h
    · exact (checkLockTime_of_le hspending hscript hstack hle).2 h

/-- A running machine that is left as it is has found its lock time met. -/
theorem meetsLockTime_of_running (hspending : m.spending? = some spending)
    (hscript : m.subScript? = some subScript) (hstack : m.stack = item :: rest)
    (hm : m.stopped = false) (h : checkLockTime m = .ok () m) :
  spending.MeetsLockTime (ScriptNumber.value item.toBytes)
  := by
  obtain ⟨_, ⟨hmet, _⟩ | ⟨_, hstopped⟩⟩ :=
    (checkLockTime_eq_ok_iff hspending hscript hstack).mp h
  · exact hmet
  · rw [hstopped] at hm
    cases hm

/-- The opcode refuses exactly the items of more than five bytes, whatever numbers the machine
allows elsewhere. It leaves the machine as it is if the number of the item is a lock time that
the input meets, and else it stops the machine and changes nothing more. So when it lets a lock
time pass, it lets every earlier one of the same kind pass, in all forms that it does not refuse.
-/
theorem execute_checkLockTimeVerify_iff (hspending : m.spending? = some spending)
    (hscript : m.subScript? = some subScript) (hstack : m.stack = item :: rest) :
  ((∃ e m', execute .checkLockTimeVerify m = .error e m') ↔ 5 < item.toBytes.length)
    ∧ (∀ m', execute .checkLockTimeVerify m = .ok () m'
      ↔ item.toBytes.length ≤ 5
        ∧ ((spending.MeetsLockTime (ScriptNumber.value item.toBytes) ∧ m' = m)
          ∨ (¬ spending.MeetsLockTime (ScriptNumber.value item.toBytes)
            ∧ m' = { m with stopped := true })))
    ∧ (m.stopped = false → execute .checkLockTimeVerify m = .ok () m →
      ∀ earlier : Int, 0 ≤ earlier → earlier ≤ ScriptNumber.value item.toBytes →
        SameKind earlier (ScriptNumber.value item.toBytes) →
        (ScriptNumber.encode earlier).length ≤ 5
        ∧ ∀ (item' : Item) (rest' : List Item), item'.toBytes.length ≤ 5 →
          ScriptNumber.value item'.toBytes = earlier →
          execute .checkLockTimeVerify { m with stack := item' :: rest' }
            = .ok () { m with stack := item' :: rest' })
  := by
  refine ⟨exists_checkLockTime_error_iff hspending hscript hstack,
    fun m' => checkLockTime_eq_ok_iff hspending hscript hstack, ?_⟩
  intro hm hok earlier hnonneg hle hkind
  have hearlier : spending.MeetsLockTime earlier :=
    (meetsLockTime_of_running hspending hscript hstack hm hok).of_le hnonneg hle hkind
  refine ⟨hearlier.length_encode_le, fun item' rest' hlength hvalue => ?_⟩
  have hmet : spending.MeetsLockTime (ScriptNumber.value item'.toBytes) := by
    rwa [hvalue]
  let m₁ : Machine := { m with stack := item' :: rest' }
  have hspending₁ : m₁.spending? = some spending := hspending
  have hscript₁ : m₁.subScript? = some subScript := hscript
  exact (checkLockTime_of_le hspending₁ hscript₁ rfl hlength).1 hmet

/-- The height of the transaction itself is met, and so is an earlier one that is written with
zeros, even by a machine that allows no numbers elsewhere. -/
theorem execute_checkLockTimeVerify_iff_height :
  let tx : Transaction := ⟨1, [⟨Outpoint.null, .empty, 1⟩], [], 367987⟩
  let m : Machine :=
    { Machine.initial with
      limits := ⟨1000, 256, 0⟩
      stack := [.bytes [0x73, 0x9d, 0x05]]
      spending? := some ⟨tx, 0, Nat.one_pos⟩
      subScript? := some .empty }
  execute .checkLockTimeVerify m = .ok () m
    ∧ execute .checkLockTimeVerify { m with stack := [.bytes [100, 0, 0, 0, 0]] }
      = .ok () { m with stack := [.bytes [100, 0, 0, 0, 0]] }
  := by
  intro tx m
  have hmet : (⟨tx, 0, Nat.one_pos⟩ : Spending).MeetsLockTime 367987 :=
    ⟨by decide, .inl (by decide), by decide, by decide⟩
  have hearlier : SameKind 100 367987 := .inl (by decide)
  obtain ⟨_, heffect, hpasses⟩ := @execute_checkLockTimeVerify_iff m _ _ _ _ rfl rfl rfl
  have hok : execute .checkLockTimeVerify m = .ok () m :=
    (heffect m).mpr ⟨by decide, .inl ⟨hmet, rfl⟩⟩
  obtain ⟨_, hforms⟩ := hpasses rfl hok 100 (by decide) (by decide) hearlier
  exact ⟨hok, hforms (.bytes [100, 0, 0, 0, 0]) [] (by decide) rfl⟩

end Step

end Bitcoin
