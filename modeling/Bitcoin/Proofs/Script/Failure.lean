import Bitcoin.Machine.Signature
import Bitcoin.Proofs.Script.Edit
import Bitcoin.Proofs.Wire.Delimited

/-!
# Why there is no script

A script has no structure because its bytes cannot be taken apart into tokens, or because the
conditionals among its tokens are not balanced (`Error.Formal`). Removing opcodes and pushes from a
script fails for no other reason (`Script.formal_of_removePushes`).
-/

namespace Bitcoin

/-- Whether an error says that bytes do not encode tokens, or that tokens are no script. -/
inductive Error.Formal : Error → Prop where
  | decoding (fault : DecodingFault) : Formal (.decoding fault)
  | parsing (fault : ParsingFault) : Formal (.parsing fault)

namespace Reader

variable {α β : Type}

/-- Whether a reader fails only because of the bytes. -/
def Decodes (reader : Reader α) : Prop :=
  ∀ cursor e cursor', reader cursor = .error e cursor' → ∃ fault, e = .decoding fault

/-- A steady reader fails with decoding errors only. -/
theorem Steady.decodes {reader : Reader α} (h : Steady reader) :
  Decodes reader
  := by
  intro cursor e cursor' hread
  obtain ⟨wanted, position, left, rfl⟩ := h.error hread
  exact ⟨_, rfl⟩

namespace Decodes

theorem pure (a : α) :
  Decodes (Pure.pure a)
  := (Steady.pure a).decodes

theorem throw (fault : DecodingFault) :
  Decodes (throw (.decoding fault) : Reader α)
  := by
  rintro _ _ _ ⟨⟩
  exact ⟨fault, rfl⟩

/-- Readers in a row fail with decoding errors only if both do. -/
theorem bind {reader : Reader α} {f : α → Reader β} (h : Decodes reader)
    (hf : ∀ a, Decodes (f a)) :
  Decodes (reader >>= f)
  := by
  intro cursor e cursor' hread
  change EStateM.bind reader f _ = _ at hread
  rw [EStateM.bind] at hread
  cases hfirst : reader cursor with
  | error e' place =>
    rw [hfirst] at hread
    cases hread
    apply h _ _ _ hfirst
  | ok a place =>
    rw [hfirst] at hread
    apply hf a _ _ _ hread

theorem get_bind {f : Cursor → Reader α} (h : ∀ cursor, Decodes (f cursor)) :
  Decodes (get >>= f)
  := fun cursor => h cursor cursor

/-- What is read to the end fails with decoding errors only. -/
theorem runOn {reader : Reader α} (h : Decodes reader) {bytes : Bytes} {e : Error}
    (hrun : reader.runOn bytes = .error e) :
  ∃ fault, e = .decoding fault
  := by
  rw [Reader.runOn] at hrun
  split at hrun
  · cases hrun
  · next hread =>
    cases hrun
    apply h _ _ _ hread

end Decodes

end Reader

namespace Token

open Reader

/-- Reading a token fails with decoding errors only. -/
theorem decodes_read :
  Decodes read
  := by
  apply Decodes.get_bind
  intro start
  apply steady_u8.decodes.bind
  intro byte
  split
  · apply (steady_take _).decodes.bind
    exact fun _ => .pure _
  · split
    · exact .throw _
    · split
      · apply (steady_natLE _).decodes.bind
        intro length
        apply (steady_take length).decodes.bind
        exact fun _ => .pure _
      · exact .pure _

theorem decodes_readAfter (bound : Nat) (done : List Token) :
  Decodes (readAfter bound done)
  := by
  induction bound generalizing done with
  | zero => exact .pure _
  | succ bound ih =>
    apply Decodes.get_bind
    intro cursor
    split
    · exact .pure _
    · apply decodes_read.bind
      exact fun t => ih (t :: done)

/-- Bytes that are not decoded are of a wrong form. -/
theorem formal_of_decodeAll {bytes : Bytes} {e : Error} (h : decodeAll bytes = .error e) :
  e.Formal
  := by
  rcases bind_eq_error_iff.mp h with h | ⟨_, _, ⟨⟩⟩
  obtain ⟨fault, rfl⟩ := (decodes_readAfter _ _).runOn h
  exact .decoding fault

end Token

theorem Builder.parsing_of_openBranch {builder : Builder} {c : Conditional} {e : Error}
    (h : builder.openBranch c = .error e) :
  ∃ fault, e = .parsing fault
  := by
  rw [openBranch] at h
  split at h
  · cases h
    exact ⟨_, rfl⟩
  · cases h

/-- A token that cannot be read is out of place. -/
theorem Builder.parsing_of_read {builder : Builder} {t : Token} {e : Error}
    (h : builder.read t = .error e) :
  ∃ fault, e = .parsing fault
  := by
  cases t with
  | push p => cases h
  | op o =>
    cases ho : o.isDelimiter with
    | false =>
      rw [read_op ho] at h
      cases h
    | true =>
      cases o with
      | ifTrue => exact parsing_of_openBranch h
      | ifFalse => exact parsing_of_openBranch h
      | otherwise =>
        obtain ⟨_ | ⟨⟨c, body, _ | alternative⟩, outer⟩, root⟩ := builder <;> cases h
        · exact ⟨_, rfl⟩
        · exact ⟨_, rfl⟩
      | endIf =>
        obtain ⟨_ | ⟨branch, outer⟩, root⟩ := builder <;> cases h
        exact ⟨_, rfl⟩
      | _ => cases ho

/-- Tokens that have no structure are not balanced. -/
theorem Builder.parsing_of_foldlM_read {builder : Builder} {ts : List Token} {e : Error}
    (h : ts.foldlM read builder = .error e) :
  ∃ fault, e = .parsing fault
  := by
  induction ts generalizing builder with
  | nil => cases h
  | cons t ts ih =>
    rw [List.foldlM_cons] at h
    rcases bind_eq_error_iff.mp h with h | ⟨_, _, h⟩
    · exact parsing_of_read h
    · exact ih h

/-- Tokens that are not nested rightly are a parsing error. -/
theorem Program.parsing_of_ofTokens {ts : List Token} {e : Error} (h : ofTokens ts = .error e) :
  ∃ fault, e = .parsing fault
  := by
  rcases bind_eq_error_iff.mp h with h | ⟨⟨_ | ⟨branch, outer⟩, root⟩, _, h⟩
  · exact Builder.parsing_of_foldlM_read h
  · cases h
  · cases h
    exact ⟨_, rfl⟩

namespace Script

variable {script : Script} {e : Error}

/-- Tokens are not assembled if they have no structure. -/
theorem parsing_of_ofTokens {ts : List Token} (h : ofTokens ts = .error e) :
  ∃ fault, e = .parsing fault
  := by
  rw [ofTokens] at h
  cases hprogram : Program.ofTokens ts with
  | error e' =>
    rw [hprogram] at h
    cases h
    apply Program.parsing_of_ofTokens hprogram
  | ok p =>
    rw [hprogram] at h
    cases h

theorem formal_of_ofTokens {ts : List Token} (h : ofTokens ts = .error e) :
  e.Formal
  := by
  obtain ⟨fault, rfl⟩ := parsing_of_ofTokens h
  exact .parsing fault

/-- A script without a program is of a wrong form. -/
theorem formal_of_program (h : script.program = .error e) :
  e.Formal
  := by
  cases script with
  | assembled p => cases h
  | encoded bytes =>
    rcases bind_eq_error_iff.mp h with h | ⟨ts, _, h⟩
    · apply Token.formal_of_decodeAll h
    · obtain ⟨fault, rfl⟩ := Program.parsing_of_ofTokens h
      exact .parsing fault

theorem formal_of_tokens (h : script.tokens = .error e) :
  e.Formal
  := by
  rw [tokens] at h
  cases hprogram : script.program with
  | error e' =>
    rw [hprogram] at h
    cases h
    apply formal_of_program hprogram
  | ok p =>
    rw [hprogram] at h
    cases h

/-- A script from which nothing can be removed has no structure, or would have none any more. -/
theorem formal_of_removeOp {op : Opcode} (h : script.removeOp op = .error e) :
  e.Formal
  := by
  rcases bind_eq_error_iff.mp h with h | ⟨ts, _, h⟩
  · apply formal_of_tokens h
  · apply formal_of_ofTokens h

/-- Nothing but the form of a script prevents data from being removed. -/
theorem formal_of_removePush {data : Bytes} (h : script.removePush data = .error e) :
  e.Formal
  := by
  rcases bind_eq_error_iff.mp h with h | ⟨ts, _, h⟩
  · apply formal_of_tokens h
  · apply formal_of_ofTokens h

theorem formal_of_removePushes {datas : List Bytes} (h : script.removePushes datas = .error e) :
  e.Formal
  := by
  induction datas generalizing script with
  | nil => cases h
  | cons data datas ih =>
    rcases bind_eq_error_iff.mp h with h | ⟨left, _, h⟩
    · apply formal_of_removePush h
    · apply ih h

end Script

end Bitcoin
