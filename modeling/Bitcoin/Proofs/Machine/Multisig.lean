import Bitcoin.Proofs.Except
import Bitcoin.Proofs.Machine.Completion
import Bitcoin.Proofs.Matching
import Bitcoin.Proofs.Script.Number

/-!
# Checking several signatures

The check of several signatures tries each one with the next keys until one fits. When the
signatures can be matched with keys in order, this finds all of them
(`Spending.countMatches_of_matched`), and those that it finds are always matched in order
(`Spending.matched_of_countMatches`).
-/

namespace Bitcoin

/-- The count ends if every signature can be tried with every key. -/
theorem Spending.exists_countMatches {spending : Spending} {subScript : Script}
    {signatures keys : List Bytes}
    (hdecided : ∀ s ∈ signatures, ∀ k ∈ keys, ∃ b, spending.checkSignature subScript s k = .ok b) :
  ∃ count, spending.countMatches subScript signatures keys = .ok count
  := by
  induction keys generalizing signatures with
  | nil =>
    use 0
    cases signatures <;> rfl
  | cons key keys ih =>
    cases signatures with
    | nil => exact ⟨0, rfl⟩
    | cons signature signatures =>
      have hrest : ∀ s ∈ signature :: signatures, ∀ k ∈ keys,
          ∃ b, spending.checkSignature subScript s k = .ok b :=
        fun s hs k hk => hdecided s hs k (List.mem_cons_of_mem key hk)
      rw [countMatches]
      split
      · exact ⟨0, rfl⟩
      · obtain ⟨matched, hmatched⟩ :=
          hdecided signature List.mem_cons_self key List.mem_cons_self
        rw [bind_of_eq_ok hmatched]
        cases matched with
        | true =>
          obtain ⟨later, hlater⟩ := ih fun s hs => hrest s (List.mem_cons_of_mem signature hs)
          use later + 1
          rw [if_pos rfl, bind_of_eq_ok hlater]
        | false => apply ih hrest

/-- A count misses none of the signatures if they can be matched with keys in order: the first key
that a signature is good for may always be the one that is chosen for it. -/
theorem Spending.count_eq_of_matched {spending : Spending} {subScript : Script}
    {signatures keys : List Bytes} {count : Nat}
    (hcount : spending.countMatches subScript signatures keys = .ok count)
    (h : Matched (fun s k => spending.checkSignature subScript s k = .ok true) signatures keys) :
  count = signatures.length
  := by
  induction keys generalizing signatures count with
  | nil =>
    cases h
    cases hcount
    rfl
  | cons key keys ih =>
    cases signatures with
    | nil =>
      cases hcount
      rfl
    | cons signature signatures =>
      have hlength := Nat.le_of_succ_le_succ h.length_le
      rw [countMatches, if_neg (Nat.not_lt.mpr hlength)] at hcount
      obtain ⟨matched, hmatched, hcount⟩ := bind_eq_ok_iff.mp hcount
      cases matched with
      | true =>
        obtain ⟨later, hlater, hcount⟩ := bind_eq_ok_iff.mp hcount
        cases hcount
        rw [List.length_cons, ih hlater h.of_good]
      | false =>
        have hbad : ¬ spending.checkSignature subScript signature key = .ok true := by
          rw [hmatched]
          decide
        apply ih hcount (h.of_not_good hbad)

/-- Signatures that can be matched with keys in order are all found. -/
theorem Spending.countMatches_of_matched {spending : Spending} {subScript : Script}
    {signatures keys : List Bytes}
    (hdecided : ∀ s ∈ signatures, ∀ k ∈ keys, ∃ b, spending.checkSignature subScript s k = .ok b)
    (h : Matched (fun s k => spending.checkSignature subScript s k = .ok true) signatures keys) :
  spending.countMatches subScript signatures keys = .ok signatures.length
  := by
  obtain ⟨count, hcount⟩ := exists_countMatches hdecided
  rw [hcount, count_eq_of_matched hcount h]

/-- The signatures that are counted are the first ones, and each is good for a key of its own, in
order. -/
theorem Spending.matched_of_countMatches {spending : Spending} {subScript : Script}
    {signatures keys : List Bytes} {count : Nat}
    (h : spending.countMatches subScript signatures keys = .ok count) :
  count ≤ signatures.length
    ∧ Matched (fun s k => spending.checkSignature subScript s k = .ok true)
      (signatures.take count) keys
  := by
  induction keys generalizing signatures count with
  | nil =>
    have hcount : count = 0 := by
      cases signatures <;> cases h <;> rfl
    subst hcount
    exact ⟨Nat.zero_le _, .nil⟩
  | cons key keys ih =>
    cases signatures with
    | nil =>
      cases h
      exact ⟨Nat.zero_le _, .nil⟩
    | cons signature signatures =>
      rw [countMatches] at h
      split at h
      · cases h
        exact ⟨Nat.zero_le _, .nil⟩
      · obtain ⟨matched, hmatched, h⟩ := bind_eq_ok_iff.mp h
        cases matched with
        | true =>
          obtain ⟨later, hlater, hcount⟩ := bind_eq_ok_iff.mp h
          cases hcount
          obtain ⟨hle, hall⟩ := ih hlater
          exact ⟨Nat.succ_le_succ hle, .take hmatched hall⟩
        | false =>
          obtain ⟨hle, hall⟩ := ih h
          exact ⟨hle, .skip hall⟩

namespace Step

variable {m m' : Machine} {stack : List Item}

/-- Data that was pushed is taken again. -/
theorem popMany_of_pushed {datas : List Bytes}
    (hstack : m.stack = datas.reverse.map .bytes ++ stack) :
  popMany datas.length m = .ok datas { m with stack }
  := by
  have hlength : (datas.reverse.map Item.bytes).length = datas.length := by simp
  have hneed : need datas.length m = .ok () m := by
    apply need_of_le
    rw [hstack, List.length_append, hlength]
    omega
  have htoBytes : Item.toBytes ∘ Item.bytes = id := rfl
  rw [popMany, bind_of_ok hneed]
  change EStateM.Result.ok ((m.stack.take datas.length).map Item.toBytes).reverse
    { m with stack := m.stack.drop datas.length } = _
  rw [hstack, List.take_left' hlength, List.drop_left' hlength, List.map_map, htoBytes,
    List.map_id, List.reverse_reverse]

/-- Several items are taken at once, the lowest one first. -/
theorem popMany_eq_ok_iff {n : Nat} {datas : List Bytes} :
  popMany n m = .ok datas m'
    ↔ n ≤ m.stack.length ∧ datas = ((m.stack.take n).map Item.toBytes).reverse
      ∧ m' = { m with stack := m.stack.drop n }
  := by
  rw [popMany, need_bind_eq_ok_iff]
  apply and_congr_right
  intro _
  constructor
  · rintro ⟨⟩
    exact ⟨rfl, rfl⟩
  · rintro ⟨rfl, rfl⟩
    rfl

/-- All data in front of an empty item are taken, if none of them is empty. -/
theorem takeNonempty_append {datas : List Bytes} (hne : ∀ data ∈ datas, data ≠ []) {n : Nat}
    (hle : datas.length ≤ n) (stack : List Item) :
  takeNonempty n (datas.map .bytes ++ .bytes [] :: stack) = datas
  := by
  induction datas generalizing n with
  | nil =>
    cases n with
    | zero => rfl
    | succ n => rfl
  | cons data datas ih =>
    obtain ⟨hdata, hmore⟩ := List.forall_mem_cons.mp hne
    cases n with
    | zero => cases hle
    | succ n =>
      have hrest := ih hmore (Nat.le_of_succ_le_succ hle)
      have hbytes : ¬ (Item.bytes data).toBytes.isEmpty = true := by rwa [List.isEmpty_iff]
      rw [List.map_cons, List.cons_append, takeNonempty, if_neg hbytes, hrest]
      rfl

/-- Data that was pushed above an empty item is taken again. -/
theorem popNonempty_of_pushed {datas : List Bytes} (hne : ∀ data ∈ datas, data ≠ []) {n : Nat}
    (hle : datas.length ≤ n)
    (hstack : m.stack = datas.reverse.map .bytes ++ .bytes [] :: stack) :
  popNonempty n m = .ok datas { m with stack := .bytes [] :: stack }
  := by
  have hfound : takeNonempty n m.stack = datas.reverse := by
    rw [hstack]
    apply takeNonempty_append
    · intro data hdata
      apply hne data (List.mem_reverse.mp hdata)
    · rwa [List.length_reverse]
  have hlength : (datas.reverse.map Item.bytes).length = datas.reverse.length := List.length_map _
  change EStateM.Result.ok (takeNonempty n m.stack).reverse
    { m with stack := m.stack.drop (takeNonempty n m.stack).length } = _
  rw [hfound, hstack, List.drop_left' hlength, List.reverse_reverse]

/-- A full check takes as many signatures as are demanded. -/
theorem popSignatures_of_full {required : Nat} (h : m.partialMultisig = false) :
  popSignatures required m = popMany required m
  := by
  change (if m.partialMultisig then popNonempty required else popMany required : Step _) m = _
  rw [h]
  rfl

/-- A partial check takes as many as are there. -/
theorem popSignatures_of_partial {required : Nat} (h : m.partialMultisig = true) :
  popSignatures required m = popNonempty required m
  := by
  change (if m.partialMultisig then popNonempty required else popMany required : Step _) m = _
  rw [h]
  rfl

/-! ### The check -/

/-- Small counts are written in at most one byte. -/
theorem length_encode_le {n : Nat} (h : n ≤ 16) :
  (ScriptNumber.encode n).length ≤ 1
  := by
  rw [ScriptNumber.length_encode_le_iff, Int.natAbs_natCast]
  omega

/-- A small number that was put on the stack is taken again. -/
theorem popInt_of_number {n : Nat} (hlimit : 1 ≤ m.limits.numberLength) (hn : n ≤ 16)
    (hstack : m.stack = .number (n : Int) :: stack) :
  popInt m = .ok (n : Int) { m with stack }
  := by
  have hlength := Nat.le_trans (length_encode_le hn) hlimit
  rw [popInt_of_cons hstack, Item.toInt_number (by omega) hlength]
  rfl

variable {spending : Spending} {subScript stripped : Script} {keys signatures : List Bytes}
  {required : Nat}

/-- Keys that were pushed with their count are taken back. -/
theorem popKeys_of_pushed (hlimit : 1 ≤ m.limits.numberLength) (hkeys : keys.length ≤ 16)
    (hstack : m.stack = .number (keys.length : Int) :: (keys.reverse.map .bytes ++ stack)) :
  popKeys m = .ok keys { m with stack }
  := by
  rw [popKeys, bind_of_ok (popInt_of_number hlimit hkeys hstack), if_neg (by omega),
    Int.toNat_natCast]
  apply popMany_of_pushed rfl

/-- The number of signatures that was pushed is taken back. -/
theorem popRequired_of_pushed (hlimit : 1 ≤ m.limits.numberLength) (hkeys : keys.length ≤ 16)
    (hrequired : required ≤ keys.length) (hstack : m.stack = .number (required : Int) :: stack) :
  popRequired keys.length m = .ok required { m with stack }
  := by
  have hsmall := Nat.le_trans hrequired hkeys
  rw [popRequired, bind_of_ok (popInt_of_number hlimit hsmall hstack), if_neg (by omega),
    Int.toNat_natCast]
  rfl

/-- What the machine has on its stack before a check: the numbers and the keys that the
revealed script has pushed, above what its supply has. -/
def beforeCheck (keys : List Bytes) (required : Nat) (stack : List Item) : List Item :=
  .number (keys.length : Int) :: (keys.reverse.map .bytes ++ .number (required : Int) :: stack)

/-- The keys and the number of signatures demanded are taken first. -/
theorem bind_popKeys_popRequired {α : Type} (hlimit : 1 ≤ m.limits.numberLength)
    (hkeys : keys.length ≤ 16) (hrequired : required ≤ keys.length)
    (hstack : m.stack = beforeCheck keys required stack) (next : List Bytes → Nat → Step α) :
  (popKeys >>= fun keys => popRequired keys.length >>= next keys) m
    = next keys required { m with stack }
  := by
  have hrequired' : popRequired keys.length { m with stack := .number (required : Int) :: stack }
      = .ok required { m with stack } := popRequired_of_pushed hlimit hkeys hrequired rfl
  rw [bind_of_ok (popKeys_of_pushed hlimit hkeys hstack), bind_of_ok hrequired']

/-- A check ends with what it has counted. -/
theorem checkMultisig_eq_ok_iff (hspending : m.spending? = some spending)
    (hscript : m.subScript? = some subScript) (hlimit : 1 ≤ m.limits.numberLength)
    (hkeys : keys.length ≤ 16) (hrequired : required ≤ keys.length)
    (hstack : m.stack = beforeCheck keys required stack) :
  checkMultisig m = .ok () m'
    ↔ ∃ signatures m₁ extra rest stripped count,
      popSignatures required { m with stack } = .ok signatures m₁ ∧ m₁.stack = extra :: rest
      ∧ subScript.removePushes signatures = .ok stripped
      ∧ spending.countMatches stripped signatures keys = .ok count
      ∧ m' = { m₁ with
        stack := .truth (extra.toBytes.isEmpty && count == signatures.length
          && signatures.length == required) :: rest
        matchCount := count }
  := by
  rw [checkMultisig, bind_of_ok (context_eq hspending hscript)]
  dsimp only
  rw [bind_popKeys_popRequired hlimit hkeys hrequired hstack, bind_eq_ok_iff]
  simp only [popExtra_bind_eq_ok_iff, ofExcept_bind_eq_ok_iff]
  constructor
  · rintro ⟨signatures, m₁, htaken, extra, rest, hextra, stripped, hstripped, count, hcount, ⟨⟩⟩
    exact ⟨signatures, m₁, extra, rest, stripped, count, htaken, hextra, hstripped, hcount, rfl⟩
  · rintro ⟨signatures, m₁, extra, rest, stripped, count, htaken, hextra, hstripped, hcount, rfl⟩
    exact ⟨signatures, m₁, htaken, extra, rest, hextra, stripped, hstripped, count, hcount, rfl⟩

/-- The signatures that are there, all of those demanded or in a partial check at most as
many, are taken and found to be good. -/
theorem checkMultisig_of_matches (hspending : m.spending? = some spending)
    (hscript : m.subScript? = some subScript) (hlimit : 1 ≤ m.limits.numberLength)
    (hkeys : keys.length ≤ 16) (hrequired : required ≤ keys.length)
    (hstack : m.stack
      = beforeCheck keys required (signatures.reverse.map .bytes ++ .bytes [] :: stack))
    (hne : ∀ s ∈ signatures, s ≠ []) (hle : signatures.length ≤ required)
    (hall : m.partialMultisig = false → signatures.length = required)
    (hstripped : subScript.removePushes signatures = .ok stripped)
    (hmatches : spending.countMatches stripped signatures keys = .ok signatures.length) :
  checkMultisig m = .ok () { m with
    stack := .truth (signatures.length == required) :: stack
    matchCount := signatures.length }
  := by
  let m₁ : Machine := { m with stack := signatures.reverse.map .bytes ++ .bytes [] :: stack }
  have hsignatures : popSignatures required m₁
      = .ok signatures { m with stack := .bytes [] :: stack } := by
    by_cases hpartial : m₁.partialMultisig = true
    · rw [popSignatures_of_partial hpartial]
      apply popNonempty_of_pushed hne hle rfl
    · have hfull := Bool.eq_false_of_not_eq_true hpartial
      rw [popSignatures_of_full hfull, ← hall hfull]
      apply popMany_of_pushed rfl
  apply (checkMultisig_eq_ok_iff hspending hscript hlimit hkeys hrequired hstack).mpr
  refine ⟨signatures, _, .bytes [], stack, stripped, _, hsignatures, rfl, hstripped, hmatches, ?_⟩
  rw [beq_self_eq_true]
  rfl

/-- Too few signatures to be taken are an error. -/
theorem checkMultisig_of_missing (hspending : m.spending? = some spending)
    (hscript : m.subScript? = some subScript) (hlimit : 1 ≤ m.limits.numberLength)
    (hkeys : keys.length ≤ 16) (hrequired : required ≤ keys.length)
    (hstack : m.stack = beforeCheck keys required stack) (hle : stack.length ≤ required)
    (hfull : m.partialMultisig = false) :
  ∃ e m', checkMultisig m = .error e m'
  := by
  cases hcheck : checkMultisig m with
  | error e m' => exact ⟨e, m', rfl⟩
  | ok _ m' =>
    obtain ⟨signatures, m₁, extra, rest, _, _, htaken, hextra, _⟩ :=
      (checkMultisig_eq_ok_iff hspending hscript hlimit hkeys hrequired hstack).mp hcheck
    have hfew : popSignatures required { m with stack } = popMany required { m with stack } :=
      popSignatures_of_full hfull
    obtain ⟨_, _, rfl⟩ := popMany_eq_ok_iff.mp (hfew.symm.trans htaken)
    -- Nothing is left that could be the item below the signatures.
    have hnothing : stack.drop required = [] := List.drop_eq_nil_of_le hle
    cases hnothing.symm.trans hextra

/-! ### The revealed script -/

variable {redeem : MultisigRedeem} {depth : Nat}

/-- A demand for signatures pushes its numbers and its keys, and then checks. -/
theorem exists_pushes_redeemTokens (hvalid : redeem.Valid) :
  ∃ ts items, redeem.tokens = ts ++ [.op .checkMultisig] ∧ List.Forall₂ Token.Pushes ts items
    ∧ ts.length = redeem.keys.length + 2
    ∧ ∀ stack, items.reverse ++ stack = beforeCheck redeem.keys redeem.required stack
  := by
  obtain ⟨hpos, hle, hkeys, _⟩ := hvalid
  have hpushes : List.Forall₂ Token.Pushes (redeem.keys.map fun key => .push ⟨.inline, key⟩)
      (redeem.keys.map .bytes) := by
    rw [List.forall₂_map_left_iff, List.forall₂_map_right_iff, List.forall₂_same]
    exact fun key _ => .data ⟨.inline, key⟩
  have hrequired := pushes_countOpcode hpos (Nat.le_trans hle hkeys)
  have hcount := pushes_countOpcode (Nat.le_trans hpos hle) hkeys
  refine ⟨_, _, ?_, .cons hrequired (List.rel_append hpushes (.cons hcount .nil)), ?_, ?_⟩
  · simp [MultisigRedeem.tokens]
  · simp
  · simp [beforeCheck]

/-- A demand puts its counts and keys on the stack, and then checks. -/
theorem run_redeemTokens (hvalid : redeem.Valid) (hm : m.stopped = false)
    (hsize : redeem.keys.length + 2 + m.size ≤ m.limits.stackSize) :
  (Program.flat redeem.tokens).run depth m = (Program.flat [.op .checkMultisig]).run depth
    { m with stack := beforeCheck redeem.keys redeem.required m.stack }
  := by
  obtain ⟨ts, items, htokens, hts, hlength, hitems⟩ := exists_pushes_redeemTokens hvalid
  rw [htokens, run_flat_constants hts hm (by omega), hitems]

/-- A demand is executed to its end only if there is room for what it puts on the stack. -/
theorem room_of_run_redeemTokens (hvalid : redeem.Valid) (hm : m.stopped = false)
    (h : (Program.flat redeem.tokens).run depth m = .ok () m') :
  redeem.keys.length + 2 + m.size ≤ m.limits.stackSize
  := by
  obtain ⟨ts, items, htokens, hts, hlength, _⟩ := exists_pushes_redeemTokens hvalid
  rw [htokens] at h
  rw [← hlength]
  apply room_of_run_flat_constants hts hm h

end Step

end Bitcoin
