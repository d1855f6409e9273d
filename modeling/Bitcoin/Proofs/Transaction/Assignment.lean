import Bitcoin.Proofs.Transaction.Cosigning

/-!
# Signatures are assigned to keys in order

A check of several signatures takes their number, the number of keys and all of these from the
stack. What a full check has found there can be read off from its end
(`Step.checkMultisig_full_eq_ok_iff`). It commits each signature to the first key that fits, and
gives up once more signatures than keys are left; still no assignment is missed: it finds that all
the signatures are good exactly if there is a strictly increasing map from signatures to keys that
they are good for (`Step.checkMultisig_assigns`).
-/

namespace Bitcoin

open Transaction

/-! ### Signatures and keys -/

/-- All signatures are counted exactly if they can be assigned to keys in order. -/
theorem Spending.count_eq_length_iff {spending : Spending} {subScript : Script}
    {signatures keys : List Item} {count : Nat}
    (hcount : spending.countMatches subScript (signatures.map Item.toBytes)
      (keys.map Item.toBytes) = .ok count) :
  count = signatures.length
    ↔ ∃ f : Fin signatures.length → Fin keys.length, StrictMono f
      ∧ ∀ i, spending.checkSignature subScript signatures[i].toBytes keys[f i].toBytes = .ok true
  := by
  constructor
  · rintro rfl
    obtain ⟨_, hmatched⟩ := matched_of_countMatches hcount
    rw [← List.length_map Item.toBytes, List.take_length] at hmatched
    apply (Matched.map_iff.mp hmatched).exists_strictMono
  · rintro ⟨f, hf, hgood⟩
    have hmatched : Matched
        (fun s k : Item => spending.checkSignature subScript s.toBytes k.toBytes = .ok true)
        signatures keys := .of_strictMono hf hgood
    rw [count_eq_of_matched hcount (Matched.map_iff.mpr hmatched), List.length_map]

/-- What is left of a script without the pushes of some data has its other tokens. -/
theorem Script.tokens_of_removePushes {script stripped : Script} {datas : List Bytes}
    {ts : List Token} (h : script.removePushes datas = .ok stripped)
    (hts : script.tokens = .ok ts) :
  stripped.tokens = .ok (ts.filter fun t => ∀ data ∈ datas, t.data? ≠ some data)
  := by
  induction datas generalizing script ts with
  | nil =>
    cases h
    have hall : ts.filter (fun t => ∀ data ∈ ([] : List Bytes), t.data? ≠ some data) = ts := by
      simp
    rw [hall]
    apply hts
  | cons data datas ih =>
    obtain ⟨script', hscript, hrest⟩ := bind_eq_ok_iff.mp h
    rw [removePush, bind_of_eq_ok hts] at hscript
    rw [ih hrest (tokens_of_ofTokens hscript), List.filter_filter]
    congr 2
    funext t
    simp [Bool.and_comm]

/-- No signature is good for what is not a key. -/
theorem Spending.checkSignature_of_key_error {spending : Spending} {subScript : Script}
    {signature key : Bytes} {e : Error} (h : PublicKey.ofBytes key .mainnet = .error e) :
  spending.checkSignature subScript signature key = .ok false
  := by
  rw [checkSignature, h]
  cases signature.getLast? with
  | none => rfl
  | some _ => cases Signature.ofDer signature.dropLast <;> rfl

/-- A signature by a key is good for it. -/
theorem Spending.checkSignature_of_signDigest {spending : Spending} {subScript : Script}
    {type : UInt8} {digest : FixedBytes 32} {key : PrivateKey} {signature : Signature}
    {compressed : Bool}
    (hdigest : spending.transaction.digest spending.index type.toUInt32 subScript = .ok digest)
    (hsignature : key.signDigest digest.toList = .ok signature) :
  spending.checkSignature subScript (signatureBytes signature type)
    (key.publicKey.toBytes compressed) = .ok true
  := by
  rw [checkSignature_signatureBytes signature hdigest (key.ofBytes_publicKey compressed .mainnet)]
  exact congrArg Except.ok (PrivateKey.verifyDigest_of_signDigest hsignature rfl)

namespace Step

variable {m m' : Machine}

/-! ### What is taken -/

theorem popInt_eq_ok_iff {n : Int} :
  popInt m = .ok n m'
    ↔ ∃ item stack, m.stack = item :: stack ∧ item.toInt m.limits.numberLength = .ok n
      ∧ m' = { m with stack }
  := by
  change (pop >>= fun item => ofExcept (item.toInt m.limits.numberLength)) m = _ ↔ _
  rw [take_bind_eq_ok_iff (fun h => ⟨_, pop_of_nil h⟩) pop_of_cons]
  simp only [ofExcept_eq_ok_iff]

/-- The items that are taken stood on top, with the last one highest. -/
theorem popMany_eq_ok_iff_exists {n : Nat} {datas : List Bytes} :
  popMany n m = .ok datas m'
    ↔ ∃ items stack : List Item, m.stack = items.reverse ++ stack ∧ items.length = n
      ∧ datas = items.map Item.toBytes ∧ m' = { m with stack }
  := by
  rw [popMany_eq_ok_iff]
  constructor
  · rintro ⟨hle, rfl, rfl⟩
    refine ⟨(m.stack.take n).reverse, m.stack.drop n, ?_, ?_, ?_, rfl⟩
    · rw [List.reverse_reverse, List.take_append_drop]
    · rw [List.length_reverse, List.length_take, Nat.min_eq_left hle]
    · rw [List.map_reverse]
  · rintro ⟨items, stack, hstack, rfl, rfl, rfl⟩
    rw [hstack, List.take_left' items.length_reverse, List.drop_left' items.length_reverse]
    simp

theorem popKeys_eq_ok_iff {keys : List Bytes} :
  popKeys m = .ok keys m'
    ↔ ∃ (count : Item) (items stack : List Item), m.stack = count :: (items.reverse ++ stack)
      ∧ count.toInt m.limits.numberLength = .ok (items.length : Int) ∧ items.length ≤ 20
      ∧ keys = items.map Item.toBytes ∧ m' = { m with stack }
  := by
  rw [popKeys, bind_eq_ok_iff]
  simp only [popInt_eq_ok_iff]
  constructor
  · rintro ⟨n, _, ⟨count, stack, hstack, hcount, rfl⟩, h⟩
    split at h
    · cases h
    · next hrange =>
      obtain ⟨items, rest, rfl, hlength, rfl, rfl⟩ := popMany_eq_ok_iff_exists.mp h
      refine ⟨count, items, rest, hstack, ?_, ?_, rfl, rfl⟩
      · rw [hcount, hlength, Int.toNat_of_nonneg (by omega)]
      · omega
  · rintro ⟨count, items, stack, hstack, hcount, hle, rfl, rfl⟩
    refine ⟨items.length, _, ⟨count, _, hstack, hcount, rfl⟩, ?_⟩
    rw [if_neg (by omega)]
    apply popMany_eq_ok_iff_exists.mpr
    exact ⟨items, stack, rfl, rfl, rfl, rfl⟩

theorem popRequired_eq_ok_iff {keys required : Nat} :
  popRequired keys m = .ok required m'
    ↔ ∃ item stack, m.stack = item :: stack
      ∧ item.toInt m.limits.numberLength = .ok (required : Int) ∧ required ≤ keys
      ∧ m' = { m with stack }
  := by
  rw [popRequired, bind_eq_ok_iff]
  simp only [popInt_eq_ok_iff]
  constructor
  · rintro ⟨n, _, ⟨item, stack, hstack, hitem, rfl⟩, h⟩
    split at h
    · cases h
    · next hrange =>
      cases h
      refine ⟨item, stack, hstack, ?_, by omega, rfl⟩
      rw [hitem, Int.toNat_of_nonneg (by omega)]
  · rintro ⟨item, stack, hstack, hitem, hle, rfl⟩
    refine ⟨required, _, ⟨item, stack, hstack, hitem, rfl⟩, ?_⟩
    rw [if_neg (by omega)]
    rfl

/-! ### The check -/

/-- The stack of a check of several signatures: the number of keys, the keys, the number of
signatures, the signatures and an item below them. -/
theorem checkMultisig_full_eq_ok_iff (hfull : m.partialMultisig = false) :
  checkMultisig m = .ok () m'
    ↔ ∃ (spending : Spending) (subScript stripped : Script) (keyCount required extra : Item)
        (keys signatures rest : List Item) (count : Nat),
      m.spending? = some spending ∧ m.subScript? = some subScript
      ∧ m.stack = keyCount :: (keys.reverse ++ required :: (signatures.reverse ++ extra :: rest))
      ∧ keyCount.toInt m.limits.numberLength = .ok (keys.length : Int)
      ∧ required.toInt m.limits.numberLength = .ok (signatures.length : Int)
      ∧ keys.length ≤ 20 ∧ signatures.length ≤ keys.length
      ∧ subScript.removePushes (signatures.map Item.toBytes) = .ok stripped
      ∧ spending.countMatches stripped (signatures.map Item.toBytes) (keys.map Item.toBytes)
        = .ok count
      ∧ m' = { m with
        stack := .truth (extra.toBytes.isEmpty && count == signatures.length) :: rest
        matchCount := count }
  := by
  rw [checkMultisig, context_bind_eq_ok_iff]
  have hsignatures : ∀ {stack : List Item} {required : Nat},
      popSignatures required { m with stack } = popMany required { m with stack } :=
    popSignatures_of_full hfull
  simp only [bind_eq_ok_iff (x := popKeys), popKeys_eq_ok_iff,
    bind_eq_ok_iff (x := popRequired _), popRequired_eq_ok_iff,
    bind_eq_ok_iff (x := popSignatures _), popExtra_bind_eq_ok_iff, ofExcept_bind_eq_ok_iff]
  constructor
  · rintro ⟨spending, subScript, hspending, hscript, _, _,
      ⟨keyCount, keys, _, hstack, hkeyCount, hkeys, rfl, rfl⟩, _, _,
      ⟨required, _, rfl, hrequired, hle, rfl⟩, _, _, htaken, extra, rest, hextra,
      stripped, hstripped, count, hcount, hm'⟩
    obtain ⟨signatures, _, rfl, rfl, rfl, rfl⟩ :=
      popMany_eq_ok_iff_exists.mp (hsignatures.symm.trans htaken)
    obtain rfl : _ = extra :: rest := hextra
    cases hm'
    rw [List.length_map] at hle
    refine ⟨spending, subScript, stripped, keyCount, required, extra, keys, signatures, rest, count,
      hspending, hscript, hstack, hkeyCount, hrequired, hkeys, hle, hstripped, hcount, ?_⟩
    simp
  · rintro ⟨spending, subScript, stripped, keyCount, required, extra, keys, signatures, rest, count,
      hspending, hscript, hstack, hkeyCount, hrequired, hkeys, hle, hstripped, hcount, rfl⟩
    refine ⟨spending, subScript, hspending, hscript, _, _,
      ⟨keyCount, keys, _, hstack, hkeyCount, hkeys, rfl, rfl⟩, _, _,
      ⟨required, _, rfl, hrequired, by rwa [List.length_map], rfl⟩, _, _,
      hsignatures.trans (popMany_eq_ok_iff_exists.mpr ⟨signatures, _, rfl, rfl, rfl, rfl⟩),
      extra, rest, rfl, stripped, hstripped, count, hcount, ?_⟩
    rw [List.length_map, beq_self_eq_true, Bool.and_true]
    rfl

/-- A full check of several signatures that ends has taken the number of keys, the keys, the number
of signatures, the signatures and the item below them, and has put one truth value in their place:
whether that item is empty and the signatures are good for keys of their own in order. All of them
have then been counted. What a signature commits to is the script without pushes of any of the
signatures. -/
theorem checkMultisig_assigns (hfull : m.partialMultisig = false)
    (h : checkMultisig m = .ok () m') :
  ∃ (spending : Spending) (subScript stripped : Script) (keyCount required extra : Item)
      (keys signatures : List Item) (verdict : Bool),
    m.spending? = some spending ∧ m.subScript? = some subScript
    ∧ m.stack = keyCount :: (keys.reverse ++ required :: (signatures.reverse
      ++ extra :: m.stack.drop (keys.length + signatures.length + 3)))
    ∧ keyCount.toInt m.limits.numberLength = .ok (keys.length : Int)
    ∧ required.toInt m.limits.numberLength = .ok (signatures.length : Int)
    ∧ subScript.removePushes (signatures.map Item.toBytes) = .ok stripped
    ∧ (∀ ts, subScript.tokens = .ok ts → stripped.tokens
      = .ok (ts.filter fun t => ∀ s ∈ signatures, t.data? ≠ some s.toBytes))
    ∧ m' = { m with
      stack := .truth verdict :: m.stack.drop (keys.length + signatures.length + 3)
      matchCount := m'.matchCount }
    ∧ (verdict = true ↔ extra.toBytes = []
      ∧ ∃ f : Fin signatures.length → Fin keys.length, StrictMono f
        ∧ ∀ i, spending.checkSignature stripped signatures[i].toBytes keys[f i].toBytes = .ok true)
    ∧ (verdict = true → m'.matchCount = signatures.length)
  := by
  obtain ⟨spending, subScript, stripped, keyCount, required, extra, keys, signatures, rest, count,
    hspending, hscript, hstack, hkeyCount, hrequired, _, _, hstripped, hcount, rfl⟩ :=
    (checkMultisig_full_eq_ok_iff hfull).mp h
  have hdrop : m.stack.drop (keys.length + signatures.length + 3) = rest := by
    have hfront : (keyCount :: (keys.reverse ++ required :: (signatures.reverse ++ [extra]))).length
        = keys.length + signatures.length + 3 := by
      simp only [List.length_cons, List.length_append, List.length_reverse, List.length_nil]
      omega
    have hsplit : m.stack
        = keyCount :: (keys.reverse ++ required :: (signatures.reverse ++ [extra])) ++ rest := by
      rw [hstack]
      simp
    rw [hsplit, List.drop_left' hfront]
  subst hdrop
  refine ⟨spending, subScript, stripped, keyCount, required, extra, keys, signatures,
    extra.toBytes.isEmpty && count == signatures.length, hspending, hscript, hstack, hkeyCount,
    hrequired, hstripped, ?_, rfl, ?_, ?_⟩
  · intro ts hts
    rw [Script.tokens_of_removePushes hstripped hts]
    simp
  · rw [Bool.and_eq_true, List.isEmpty_iff, beq_iff_eq, Spending.count_eq_length_iff hcount]
  · rw [Bool.and_eq_true, beq_iff_eq]
    apply And.right

end Step

/-- A signature that is good for the second of two keys, the first of which is none. -/
theorem Step.checkMultisig_assigns_second :
  ∃ (signature : Signature) (m m' : Machine),
    m.stack = [.number 2, .bytes (keyOne.publicKey.toBytes true), .bytes [0x05], .number 1,
      .bytes (signatureBytes signature 3), .bytes []]
    ∧ m.partialMultisig = false ∧ checkMultisig m = .ok () m'
    ∧ m'.stack = [.truth true]
    ∧ ∃ (spending : Spending) (stripped : Script) (keys signatures : List Item)
        (f : Fin signatures.length → Fin keys.length),
      keys.length = 2 ∧ m'.matchCount = signatures.length ∧ StrictMono f
      ∧ ∀ i, spending.checkSignature stripped signatures[i].toBytes keys[f i].toBytes = .ok true
  := by
  have hsignature := keyOne.signDigest_toList missingOutputDigest
  generalize Ecdsa.sign keyOne.secret missingOutputDigest = signature at hsignature
  let spending : Spending := ⟨withoutOutputs, 0, Nat.one_pos⟩
  let signed := signatureBytes signature 3
  let key := keyOne.publicKey.toBytes true
  let m : Machine := { Machine.initial with
    stack := [.number 2, .bytes key, .bytes [0x05], .number 1, .bytes signed, .bytes []]
    spending? := some spending
    subScript? := some .empty }
  let m' : Machine := { m with stack := [.truth true], matchCount := 1 }
  have hdigest : withoutOutputs.digest 0 (3 : UInt8).toUInt32 (.assembled .done)
      = .ok missingOutputDigest := digest_withoutOutputs _
  have hbad : spending.checkSignature (.assembled .done) signed [0x05] = .ok false := by
    apply Spending.checkSignature_of_key_error rfl
  have hgood : spending.checkSignature (.assembled .done) signed key = .ok true := by
    apply Spending.checkSignature_of_signDigest hdigest hsignature
  have hcount : spending.countMatches (.assembled .done) [signed] [[0x05], key] = .ok 1 := by
    rw [Spending.countMatches, if_neg (by decide), bind_of_eq_ok hbad, if_neg Bool.false_ne_true,
      Spending.countMatches, if_neg (by decide), bind_of_eq_ok hgood, if_pos rfl]
    rfl
  have hcheck : checkMultisig m = .ok () m' := by
    have hfew : 2 ≤ 20 := by decide
    have hfewer : 1 ≤ 2 := by decide
    apply (checkMultisig_full_eq_ok_iff rfl).mpr
    exact ⟨spending, .empty, .assembled .done, .number 2, .number 1, .bytes [],
      [.bytes [0x05], .bytes key], [.bytes signed], [], 1, rfl, rfl, rfl, rfl, rfl, hfew, hfewer,
      rfl, hcount, rfl⟩
  refine ⟨signature, m, m', rfl, rfl, hcheck, rfl, ?_⟩
  obtain ⟨spending, _, stripped, keyCount, _, _, keys, signatures, verdict, _, _, hstack, hkeys, _,
    _, _, hm', hassigned, hall⟩ := checkMultisig_assigns rfl hcheck
  have hverdict : verdict = true := by
    have hstack' := congrArg Machine.stack hm'
    apply (Item.truth.inj (List.cons.inj hstack').1).symm
  have hlength : keys.length = 2 := by
    rw [← (List.cons.inj hstack).1] at hkeys
    have htwo : (Item.number 2).toInt 4 = .ok 2 := rfl
    have hkeys' := Except.ok.inj (htwo.symm.trans hkeys)
    omega
  obtain ⟨_, f, hf, hgood⟩ := hassigned.mp hverdict
  exact ⟨spending, stripped, keys, signatures, f, hlength, hall hverdict, hf, hgood⟩

end Bitcoin
