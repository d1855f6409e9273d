import Bitcoin.Proofs.Script.Coherence

/-!
# Changing a script in place

A `Script.Change` inserts, appends, deletes or replaces a token. `Change.onTokens` is what it does
to a sequence of tokens, and `Change.run` what it does to a script that is held in place.

A change succeeds exactly if the tokens have its place and the changed tokens have a structure, and
then the script that is held is the one that is assembled from the changed tokens
(`Change.run_eq_ok_iff`). Otherwise the script is kept. A change that leads back to the tokens from
before leads back to the bytes from before, too (`Change.exists_run_back`).
-/

namespace Bitcoin.Script

/-- A change of a script by one token. -/
inductive Change where
  /-- Puts a token in front of the one at an index, or at the end. -/
  | insert (index : Nat) (token : Token)
  /-- Puts a token at the end. -/
  | append (token : Token)
  /-- Takes out the token at an index. -/
  | delete (index : Nat)
  /-- Puts a token in place of the one at an index, which is taken out. -/
  | set (index : Nat) (token : Token)

namespace Change

/-- Whether there is a place for a change. -/
def InRange (ts : List Token) : Change → Prop
  | insert index _ => index ≤ ts.length
  | append _ => True
  | delete index => index < ts.length
  | set index _ => index < ts.length

/-- The changed tokens. -/
def onTokens (ts : List Token) : Change → List Token
  | insert index token => ts.insertIdx index token
  | append token => ts ++ [token]
  | delete index => ts.eraseIdx index
  | set index token => ts.set index token

/-- The token that a change takes out. -/
def taken? (ts : List Token) : Change → Option Token
  | insert _ _ => none
  | append _ => none
  | delete index => ts[index]?
  | set index _ => ts[index]?

/-- The changed script, and the token that was taken out. -/
def edit (script : Script) : Change → Except Error (Script × Option Token)
  | insert index token => (script.insert index token).map fun edited => (edited, none)
  | append token => (script.append token).map fun edited => (edited, none)
  | delete index => (script.delete index).map fun (edited, token) => (edited, some token)
  | set index token => (script.set index token).map fun (edited, token) => (edited, some token)

/-- Changes the script that is held. It is replaced only after all that can fail. -/
def run (change : Change) : EStateM Error Script (Option Token) := do
  let (edited, taken) ← ofExcept (change.edit (← get))
  EStateM.set edited
  return taken

variable {change : Change} {script edited : Script} {ts : List Token} {taken : Option Token}

/-- A script is changed exactly if its tokens have the place of the change and the changed tokens
can be assembled; they are assembled to the changed script. -/
theorem edit_eq_ok_iff :
  change.edit script = .ok (edited, taken)
    ↔ ∃ ts, script.tokens = .ok ts ∧ change.InRange ts ∧ change.taken? ts = taken
      ∧ ofTokens (change.onTokens ts) = .ok edited
  := by
  cases change with
  | insert index token =>
    rw [edit, map_eq_ok_iff]
    constructor
    · rintro ⟨_, h, ⟨⟩⟩
      obtain ⟨ts, hts, hle, hedited⟩ := insert_eq_ok_iff.mp h
      exact ⟨ts, hts, hle, rfl, hedited⟩
    · rintro ⟨ts, hts, hle, rfl, hedited⟩
      exact ⟨edited, insert_eq_ok_iff.mpr ⟨ts, hts, hle, hedited⟩, rfl⟩
  | append token =>
    rw [edit, map_eq_ok_iff]
    constructor
    · rintro ⟨_, h, ⟨⟩⟩
      obtain ⟨ts, hts, hedited⟩ := append_eq_ok_iff.mp h
      exact ⟨ts, hts, trivial, rfl, hedited⟩
    · rintro ⟨ts, hts, _, rfl, hedited⟩
      exact ⟨edited, append_eq_ok_iff.mpr ⟨ts, hts, hedited⟩, rfl⟩
  | delete index =>
    rw [edit, map_eq_ok_iff]
    constructor
    · rintro ⟨_, h, ⟨⟩⟩
      obtain ⟨ts, hts, hindex, hedited⟩ := delete_eq_ok_iff.mp h
      exact ⟨ts, hts, (List.getElem?_eq_some_iff.mp hindex).1, hindex, hedited⟩
    · rintro ⟨ts, hts, hlt, rfl, hedited⟩
      have hindex := List.getElem?_eq_getElem hlt
      exact ⟨_, delete_eq_ok_iff.mpr ⟨ts, hts, hindex, hedited⟩, by rw [taken?, hindex]⟩
  | set index token =>
    rw [edit, map_eq_ok_iff]
    constructor
    · rintro ⟨_, h, ⟨⟩⟩
      obtain ⟨ts, hts, hindex, hedited⟩ := set_eq_ok_iff.mp h
      exact ⟨ts, hts, (List.getElem?_eq_some_iff.mp hindex).1, hindex, hedited⟩
    · rintro ⟨ts, hts, hlt, rfl, hedited⟩
      have hindex := List.getElem?_eq_getElem hlt
      exact ⟨_, set_eq_ok_iff.mpr ⟨ts, hts, hindex, hedited⟩, by rw [taken?, hindex]⟩

/-- A change replaces the script that is held if it succeeds. -/
theorem run_eq (change : Change) (script : Script) :
  change.run script = match change.edit script with
    | .ok (edited, taken) => .ok taken edited
    | .error e => .error e script
  := by
  change (ofExcept (change.edit script) >>= _ : EStateM Error Script _) script = _
  cases change.edit script with
  | ok _ => rfl
  | error _ => rfl

/-- A change succeeds where its index is in range and the tokens that it leaves can be assembled.
-/
theorem run_eq_ok_iff (hts : script.tokens = .ok ts) :
  change.run script = .ok taken edited
    ↔ change.InRange ts ∧ change.taken? ts = taken ∧ ofTokens (change.onTokens ts) = .ok edited
  := by
  have hedit : change.run script = .ok taken edited ↔ change.edit script = .ok (edited, taken) := by
    rw [run_eq]
    cases change.edit script with
    | error e => simp
    | ok result => simp [Prod.ext_iff, and_comm]
  rw [hedit, edit_eq_ok_iff, hts]
  simp

/-- A change that fails leaves the script as it was. -/
theorem state_of_run_error {e : Error} {left : Script}
    (h : change.run script = .error e left) :
  left = script
  := by
  rw [run_eq] at h
  split at h
  · cases h
  · cases h
    rfl

/-- A change is taken back by another one that leads back to the tokens from before. -/
theorem exists_run_back {back : Change} (h : script.Structured) (hts : script.tokens = .ok ts)
    (hrun : change.run script = .ok taken edited) (hrange : back.InRange (change.onTokens ts))
    (hback : back.onTokens (change.onTokens ts) = ts) :
  ∃ restored, back.run edited = .ok (back.taken? (change.onTokens ts)) restored
    ∧ restored.bytes = script.bytes ∧ restored.tokens = .ok ts
  := by
  obtain ⟨_, _, hedited⟩ := (run_eq_ok_iff hts).mp hrun
  obtain ⟨restored, hrestored⟩ := h.exists_ofTokens hts
  have htokens := tokens_of_ofTokens hrestored
  refine ⟨restored, ?_, ?_, htokens⟩
  · apply (run_eq_ok_iff (tokens_of_ofTokens hedited)).mpr
    rw [hback]
    exact ⟨hrange, rfl, hrestored⟩
  · rw [bytes_of_tokens htokens, bytes_of_tokens hts]

/-- A change of a built script succeeds exactly if its place is there and the changed tokens have a
structure. The script is then the one with the changed tokens, their structure and their bytes, and
otherwise it is the one from before. Deleting a token that was inserted gives this token and the
bytes from before, and so does setting a token back that was replaced. -/
theorem run_exact_or_unchanged {given : Token → Prop} (hbuilt : script.BuiltFrom given)
    (hts : script.tokens = .ok ts) :
  (∀ change : Change,
      ((∃ taken edited, change.run script = .ok taken edited)
        ↔ change.InRange ts ∧ ∃ p, Program.ofTokens (change.onTokens ts) = .ok p)
      ∧ (∀ taken edited, change.run script = .ok taken edited →
        taken = change.taken? ts
        ∧ edited.tokens = .ok (change.onTokens ts)
        ∧ edited.program = Program.ofTokens (change.onTokens ts)
        ∧ edited.bytes = Token.encodeAll (change.onTokens ts))
      ∧ ∀ e left, change.run script = .error e left →
        left.bytes = script.bytes ∧ left.tokens = .ok ts)
    ∧ (∀ index token taken edited, (insert index token).run script = .ok taken edited →
      ∃ restored, (delete index).run edited = .ok (some token) restored
        ∧ restored.bytes = script.bytes ∧ restored.tokens = .ok ts)
    ∧ ∀ index token replaced edited, (set index token).run script = .ok (some replaced) edited →
      ∃ restored, (set index replaced).run edited = .ok (some token) restored
        ∧ restored.bytes = script.bytes ∧ restored.tokens = .ok ts
  := by
  have hstructured := hbuilt.structured hts
  refine ⟨fun change => ⟨?_, ?_, ?_⟩, ?_, ?_⟩
  · simp only [run_eq_ok_iff hts, ofTokens, map_eq_ok_iff]
    constructor
    · rintro ⟨_, _, hrange, _, p, hp, _⟩
      exact ⟨hrange, p, hp⟩
    · rintro ⟨hrange, p, hp⟩
      exact ⟨_, _, hrange, rfl, p, hp, rfl⟩
  · intro taken edited hrun
    obtain ⟨_, rfl, hedited⟩ := (run_eq_ok_iff hts).mp hrun
    obtain ⟨htokens, hbytes⟩ := of_ofTokens hedited
    obtain ⟨p, hp, rfl⟩ := map_eq_ok_iff.mp hedited
    exact ⟨rfl, htokens, hp.symm, hbytes⟩
  · intro e left hrun
    obtain rfl := state_of_run_error hrun
    exact ⟨rfl, hts⟩
  · intro index token taken edited hrun
    obtain ⟨hle, _⟩ := (run_eq_ok_iff hts).mp hrun
    have hle : index ≤ ts.length := hle
    have hlength : (ts.insertIdx index token).length = ts.length + 1 :=
      List.length_insertIdx_of_le_length hle token
    have htaken : (ts.insertIdx index token)[index]? = some token := by
      rw [List.getElem?_insertIdx_self, if_pos hle]
    rw [← htaken]
    apply exists_run_back hstructured hts hrun
    · change index < (ts.insertIdx index token).length
      omega
    · apply List.eraseIdx_insertIdx_self
  · intro index token replaced edited hrun
    obtain ⟨hlt, hreplaced, _⟩ := (run_eq_ok_iff hts).mp hrun
    obtain ⟨hlt, rfl⟩ := List.getElem?_eq_some_iff.mp hreplaced
    have htaken : (ts.set index token)[index]? = some token := List.getElem?_set_self hlt
    rw [← htaken]
    apply exists_run_back hstructured hts hrun
    · change index < (ts.set index token).length
      rwa [List.length_set]
    · change (ts.set index token).set index ts[index] = ts
      rw [List.set_set, List.set_getElem_self]

/-- A conditional is given a second part, and this is taken back; the end of the conditional cannot
be deleted, although one remains that belongs to another one. -/
theorem run_exact_or_unchanged_nested :
  let script := encoded [0x51, 0x63, 0x63, 0x52, 0x68, 0x67, 0x53, 0x68]
  let ts : List Token := [.op .one, .op .ifTrue, .op .ifTrue, .op .two, .op .endIf, .op .otherwise,
    .op .three, .op .endIf]
  script.tokens = .ok ts
    ∧ (∃ edited restored, (insert 4 (.op .otherwise)).run script = .ok none edited
      ∧ edited.bytes = [0x51, 0x63, 0x63, 0x52, 0x67, 0x68, 0x67, 0x53, 0x68]
      ∧ (delete 4).run edited = .ok (some (.op .otherwise)) restored
      ∧ restored.bytes = script.bytes)
    ∧ ¬ ∃ taken edited, (delete 4).run script = .ok taken edited
  := by
  intro script ts
  have hts : script.tokens = .ok ts := eq_ok_of_toOption (by decide +kernel)
  have hbuilt : script.BuiltFrom fun _ => True := .encoded _
  obtain ⟨hrun, hback, _⟩ := run_exact_or_unchanged hbuilt hts
  refine ⟨hts, ?_, ?_⟩
  · obtain ⟨hsucceeds, hexact, _⟩ := hrun (insert 4 (.op .otherwise))
    obtain ⟨taken, edited, hedited⟩ := hsucceeds.mpr ⟨(by decide : 4 ≤ ts.length), _, rfl⟩
    obtain ⟨rfl, _, _, hbytes⟩ := hexact taken edited hedited
    obtain ⟨restored, hrestored, hsame, _⟩ := hback 4 _ _ edited hedited
    exact ⟨edited, restored, hedited, hbytes, hrestored, hsame⟩
  · rw [(hrun (delete 4)).1]
    rintro ⟨_, p, ⟨⟩⟩

end Change

end Bitcoin.Script
