import Bitcoin.Proofs.Machine.Completion
import Bitcoin.Proofs.Script.Standard

/-!
# Running standard outputs

What the script of a standard output asks of the machine that it is run on: the items that it
takes, the hash that they have to have, and room for the items that it puts on the stack in
between. An output that pays to a script hash completes whether the hash is right or not, and
leaves the answer (`Step.completes_payToScriptHash_iff`); one that pays to a key hash completes
only for the right key, and leaves whether the signature is good
(`Step.completes_payToKeyHash_iff`).
-/

namespace Bitcoin.Step

variable {m m' : Machine} {hash : FixedBytes 20}

/-- An output that pays to a script hash compares it with the hash of the top item. -/
theorem completes_payToScriptHash_iff {script : Script}
    (h : script.program = .ok (.flat (scriptHashTokens hash))) :
  Completes (runScript script) m m'
    ↔ m.stopped = false ∧ m.size < m.limits.stackSize ∧ ∃ item stack, m.stack = item :: stack
      ∧ m' = { m with
        stack := .truth ((Digest.hash160 item.toBytes).toList == hash.toList) :: stack }
  := by
  rw [completes_runScript_iff h, scriptHashTokens]
  simp only [completes_flat_op_iff, completes_flat_push_iff, completes_flat_nil_iff]
  constructor
  · rintro ⟨hm, _, m₁, ⟨hhash, _⟩, _, _, hroom, m₂, ⟨hequal, _⟩, _, rfl⟩
    obtain ⟨item, stack, hstack, rfl⟩ := digest_eq_ok_iff.mp hhash
    obtain ⟨_, _, _, ⟨⟩, rfl⟩ := equal_eq_ok_iff.mp hequal
    simp only [Machine.size, List.length_cons, hstack] at hroom ⊢
    exact ⟨hm, by omega, item, stack, rfl, rfl⟩
  · rintro ⟨hm, hroom, item, stack, hstack, rfl⟩
    let m₁ : Machine := { m with stack := .bytes (Digest.hash160 item.toBytes).toList :: stack }
    let m₂ : Machine := { m with stack := .bytes hash.toList :: m₁.stack }
    have hhash : execute .hash160 m = .ok () m₁ :=
      digest_eq_ok_iff.mpr ⟨item, stack, hstack, rfl⟩
    have hequal : execute .equal m₂ = .ok () { m with
        stack := .truth ((Digest.hash160 item.toBytes).toList == hash.toList) :: stack } :=
      equal_eq_ok_iff.mpr ⟨_, _, _, rfl, rfl⟩
    have hsize₁ : m₁.size = m.size := by
      simp only [m₁, Machine.size, hstack, List.length_cons]
    have hsize₂ : m₂.size = m.size + 1 := by
      simp only [m₂, m₁, Machine.size, hstack, List.length_cons]
      omega
    exact ⟨hm, Nat.le_of_lt hroom, m₁, ⟨hhash, hm⟩, hsize₁ ▸ Nat.le_of_lt hroom, hm,
      hsize₂ ▸ hroom, _, ⟨hequal, hm⟩, hm, rfl⟩

/-- An output that pays to a key hash checks that the key on top has it, and then the signature
below the key. -/
theorem completes_payToKeyHash_iff :
  Completes (runScript (Script.payToKeyHash hash)) m m'
    ↔ m.stopped = false ∧ m.size + 2 ≤ m.limits.stackSize
      ∧ ∃ key signature stack spending subScript stripped verified,
        m.stack = key :: signature :: stack ∧ (Digest.hash160 key.toBytes).toList = hash.toList
        ∧ m.spending? = some spending ∧ m.subScript? = some subScript
        ∧ subScript.removePush signature.toBytes = .ok stripped
        ∧ spending.checkSignature stripped signature.toBytes key.toBytes = .ok verified
        ∧ m' = { m with stack := .truth verified :: stack }
  := by
  rw [completes_runScript_iff (program_payToKeyHash hash), keyHashTokens]
  simp only [completes_flat_op_iff, completes_flat_push_iff, completes_flat_nil_iff]
  constructor
  · rintro ⟨hm, _, m₁, ⟨hdup, _⟩, _, m₂, ⟨hhash, _⟩, _, _, hroom, m₃, hequal, _, m₄, ⟨hcheck, _⟩,
      _, rfl⟩
    obtain ⟨key, rest, hstack, rfl⟩ := dup_eq_ok_iff.mp hdup
    obtain ⟨_, _, ⟨⟩, rfl⟩ := digest_eq_ok_iff.mp hhash
    obtain ⟨_, _, _, _, ⟨⟩, hsame, rfl⟩ := completes_equalVerify_iff.mp hequal
    obtain ⟨_, signature, stack, spending, subScript, stripped, verified, ⟨⟩, hspending, hscript,
      hstripped, hverified, rfl⟩ := checkSig_eq_ok_iff.mp hcheck
    simp only [Machine.size, List.length_cons, hstack] at hroom ⊢
    exact ⟨hm, by omega, key, signature, stack, spending, subScript, stripped, verified, rfl, hsame,
      hspending, hscript, hstripped, hverified, rfl⟩
  · rintro ⟨hm, hroom, key, signature, stack, spending, subScript, stripped, verified, hstack,
      hsame, hspending, hscript, hstripped, hverified, rfl⟩
    let m₁ : Machine := { m with stack := key :: m.stack }
    let m₂ : Machine := { m with stack := .bytes (Digest.hash160 key.toBytes).toList :: m.stack }
    let m₃ : Machine := { m with stack := .bytes hash.toList :: m₂.stack }
    have hdup : execute .dup m = .ok () m₁ :=
      dup_eq_ok_iff.mpr ⟨key, _, hstack, by rw [← hstack]⟩
    have hhash : execute .hash160 m₁ = .ok () m₂ := digest_eq_ok_iff.mpr ⟨key, m.stack, rfl, rfl⟩
    have hequal : Completes (execute .equalVerify) m₃ m :=
      completes_equalVerify_iff.mpr ⟨hm, _, _, m.stack, rfl, hsame, rfl⟩
    have hcheck : execute .checkSig m = .ok () { m with stack := .truth verified :: stack } :=
      checkSig_eq_ok_iff.mpr ⟨key, signature, stack, spending, subScript, stripped, verified,
        hstack, hspending, hscript, hstripped, hverified, rfl⟩
    have hsize₁ : m₁.size = m.size + 1 := Nat.succ_add _ _
    have hsize₂ : m₂.size = m.size + 1 := Nat.succ_add _ _
    have hsize₃ : m₃.size = m₂.size + 1 := Nat.succ_add _ _
    have hroom₀ : m.size ≤ m.limits.stackSize := by omega
    have hroom₁ : m₁.size ≤ m.limits.stackSize := by omega
    have hroom₃ : m₃.size ≤ m.limits.stackSize := by omega
    exact ⟨hm, hroom₀, m₁, ⟨hdup, hm⟩, hroom₁, m₂, ⟨hhash, hm⟩, hroom₁, hm, hroom₃, m, hequal,
      hroom₀, _, ⟨hcheck, hm⟩, hm, rfl⟩

end Bitcoin.Step
