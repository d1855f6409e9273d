import Bitcoin.Proofs.Script.Assembly
import Bitcoin.Proofs.Script.Edit

/-!
# Scripts and their bytes

A script is coherent if it has the program into which its bytes are taken apart
(`Script.Coherent`). A script that is assembled from tokens is coherent exactly if the tokens are
those that a byte string is taken apart into (`Script.coherent_of_ofTokens_iff`). An opcode that
introduces data is not such a token: in front of other bytes it is taken for the beginning of a
push.

Editing a coherent script leaves a coherent script, if the tokens that are put into it can be read
from bytes. So all scripts that are built from such tokens, from texts and from byte strings are
coherent (`Script.BuiltFrom.coherent`). Whatever the tokens are, all scripts that are built have a
structure if they have tokens (`Script.BuiltFrom.structured`).
-/

namespace Bitcoin

namespace Script

/-- Whether a script has the structure that its bytes have. -/
def Coherent (script : Script) : Prop :=
  script.program = (encoded script.bytes).program

theorem coherent_encoded (bytes : Bytes) :
  (encoded bytes).Coherent
  := rfl

/-- The tokens of a coherent script can be read from its bytes. -/
theorem Coherent.readable {script : Script} (h : script.Coherent) {ts : List Token}
    (hts : script.tokens = .ok ts) :
  ∀ t ∈ ts, t.Readable
  := by
  obtain ⟨p, hp, rfl⟩ := tokens_eq_ok_iff.mp hts
  rw [h, program_encoded_eq_ok_iff, Token.decodeAll_eq_ok_iff] at hp
  apply hp.1.2

/-- A script that is assembled from tokens is coherent if the tokens can be read from their bytes,
and only then. -/
theorem coherent_of_ofTokens_iff {ts : List Token} {script : Script}
    (h : ofTokens ts = .ok script) :
  script.Coherent ↔ ∀ t ∈ ts, t.Readable
  := by
  constructor
  · exact fun hcoherent => hcoherent.readable (tokens_of_ofTokens h)
  · intro hts
    obtain ⟨p, hnested, rfl, rfl⟩ := ofTokens_eq_ok_iff.mp h
    have hp : (encoded (assembled p).bytes).program = .ok p := by
      rw [program_encoded_eq_ok_iff, Token.decodeAll_eq_ok_iff]
      exact ⟨⟨p.encode_eq.symm, hts⟩, hnested⟩
    apply hp.symm

/-- Coherent scripts with the same bytes have the same structure. -/
theorem Coherent.program_eq {a b : Script} (ha : a.Coherent) (hb : b.Coherent)
    (h : a.bytes = b.bytes) :
  a.program = b.program
  := by
  rw [ha, hb, h]

/-! ### Building scripts -/

/-- The scripts that are built from byte strings, from texts, and from tokens of a certain sort. No
data in a text is so long that its length cannot be written. -/
inductive BuiltFrom (given : Token → Prop) : Script → Prop where
  | encoded (bytes : Bytes) : BuiltFrom given (.encoded bytes)
  | parsed {text : String} {ts : List Token} {script : Script} :
      Token.ofText text = .ok ts → (∀ p, .push p ∈ ts → p.data.length < 2 ^ 32) →
        parse text = .ok script → BuiltFrom given script
  | assembled {ts : List Token} {script : Script} :
      (∀ t ∈ ts, given t) → ofTokens ts = .ok script → BuiltFrom given script
  | removeOp {script left : Script} (op : Opcode) :
      BuiltFrom given script → script.removeOp op = .ok left → BuiltFrom given left
  | removePush {script left : Script} (data : Bytes) :
      BuiltFrom given script → script.removePush data = .ok left → BuiltFrom given left
  | insert {script edited : Script} (index : Nat) {token : Token} :
      BuiltFrom given script → given token → script.insert index token = .ok edited →
        BuiltFrom given edited
  | append {script edited : Script} {token : Token} :
      BuiltFrom given script → given token → script.append token = .ok edited →
        BuiltFrom given edited
  | delete {script edited : Script} (index : Nat) {deleted : Token} :
      BuiltFrom given script → script.delete index = .ok (edited, deleted) →
        BuiltFrom given edited
  | set {script edited : Script} (index : Nat) {token replaced : Token} :
      BuiltFrom given script → given token → script.set index token = .ok (edited, replaced) →
        BuiltFrom given edited

/-- A script is edited by leaving out some of its tokens and putting others in. -/
theorem Coherent.of_edit {script edited : Script} (h : script.Coherent) {ts us : List Token}
    (hts : script.tokens = .ok ts) (hus : ∀ u ∈ us, u ∈ ts ∨ u.Readable)
    (hedited : ofTokens us = .ok edited) :
  edited.Coherent
  := by
  rw [coherent_of_ofTokens_iff hedited]
  intro u hu
  rcases hus u hu with hu | hu
  · apply h.readable hts u hu
  · apply hu

/-- What is built from tokens that can be read from their bytes has the structure that its bytes
have. -/
theorem BuiltFrom.coherent {script : Script} (h : BuiltFrom Token.Readable script) :
  script.Coherent
  := by
  induction h with
  | encoded bytes => exact coherent_encoded bytes
  | parsed hts hshort hparse =>
    rw [parse, bind_of_eq_ok hts] at hparse
    rw [coherent_of_ofTokens_iff hparse]
    apply Token.readable_of_ofText hts hshort
  | assembled hts hscript => exact (coherent_of_ofTokens_iff hscript).mpr hts
  | removeOp op _ hleft ih =>
    obtain ⟨ts, hts, hleft⟩ := bind_eq_ok_iff.mp hleft
    exact ih.of_edit hts (fun _ hu => .inl (List.mem_of_mem_filter hu)) hleft
  | removePush data _ hleft ih =>
    obtain ⟨ts, hts, hleft⟩ := bind_eq_ok_iff.mp hleft
    exact ih.of_edit hts (fun _ hu => .inl (List.mem_of_mem_filter hu)) hleft
  | insert index _ htoken hedited ih =>
    obtain ⟨ts, hts, hle, hedited⟩ := insert_eq_ok_iff.mp hedited
    apply ih.of_edit hts _ hedited
    intro u hu
    rcases (List.mem_insertIdx hle).mp hu with rfl | hu
    · exact .inr htoken
    · exact .inl hu
  | append _ htoken hedited ih =>
    obtain ⟨ts, hts, hedited⟩ := append_eq_ok_iff.mp hedited
    apply ih.of_edit hts _ hedited
    intro u hu
    rcases List.mem_append.mp hu with hu | hu
    · exact .inl hu
    · rw [List.mem_singleton.mp hu]
      exact .inr htoken
  | delete index _ hedited ih =>
    obtain ⟨ts, hts, _, hleft⟩ := delete_eq_ok_iff.mp hedited
    exact ih.of_edit hts (fun _ hu => .inl (List.mem_of_mem_eraseIdx hu)) hleft
  | set index _ htoken hedited ih =>
    obtain ⟨ts, hts, _, hleft⟩ := set_eq_ok_iff.mp hedited
    apply ih.of_edit hts _ hleft
    intro u hu
    rcases List.mem_or_eq_of_mem_set hu with hu | rfl
    · exact .inl hu
    · exact .inr htoken

/-- What is built from any tokens has a structure if it has tokens at all. -/
theorem BuiltFrom.structured {given : Token → Prop} {script : Script} (h : BuiltFrom given script)
    {ts : List Token} (hts : script.tokens = .ok ts) :
  script.Structured
  := by
  cases h with
  | encoded bytes => apply structured_encoded_iff.mpr ⟨ts, hts⟩
  | parsed htext _ hparse =>
    rw [parse, bind_of_eq_ok htext] at hparse
    apply structured_ofTokens hparse
  | assembled _ hscript => apply structured_ofTokens hscript
  | removeOp _ _ hleft | removePush _ _ hleft =>
    obtain ⟨_, _, hleft⟩ := bind_eq_ok_iff.mp hleft
    apply structured_ofTokens hleft
  | insert _ _ _ hedited =>
    obtain ⟨_, _, _, hedited⟩ := insert_eq_ok_iff.mp hedited
    apply structured_ofTokens hedited
  | append _ _ hedited =>
    obtain ⟨_, _, hedited⟩ := append_eq_ok_iff.mp hedited
    apply structured_ofTokens hedited
  | delete _ _ hedited =>
    obtain ⟨_, _, _, hleft⟩ := delete_eq_ok_iff.mp hedited
    apply structured_ofTokens hleft
  | set _ _ _ hedited =>
    obtain ⟨_, _, _, hleft⟩ := set_eq_ok_iff.mp hedited
    apply structured_ofTokens hleft

end Script

end Bitcoin
