import Bitcoin.Proofs.Json.Scalar

/-!
# Written values are read back

`Json.IsReadBack` are the values that are read back from their written form, whatever follows it.
Integers and texts are among them (`IsReadBack.integer`, `IsReadBack.text`), and so are lists and
records of such values (`IsReadBack.array`, `IsReadBack.struct`). A value is read with as much fuel
as its written form has characters.
-/

namespace Bitcoin.Json

/-- Whether a value is read back from its written form, unless a number goes on behind it. The
written form does not begin like the end of a list. -/
structure IsReadBack (value : Json) : Prop where
  exists_cons : ∃ c rest, value.render.toList = c :: rest ∧ isSpace c = false ∧ c ≠ ']'
  parseValue_append : ∀ {fuel : Nat} {rest : List Char}, value.render.toList.length ≤ fuel →
    EndsNumber rest → parseValue fuel (value.render.toList ++ rest) = some (value, rest)

theorem endsNumber_nil :
  EndsNumber []
  := by
  rintro _ ⟨⟩

theorem endsNumber_cons {c : Char} (rest : List Char)
    (h : c.isDigit = false ∧ c ≠ '.' ∧ c ≠ 'e' ∧ c ≠ 'E') :
  EndsNumber (c :: rest)
  := by
  rintro _ ⟨⟩
  exact h

/-- Nothing is skipped in front of a character that is no blank. -/
theorem skipSpace_cons {c : Char} (h : isSpace c = false) (rest : List Char) :
  skipSpace (c :: rest) = c :: rest
  := by
  rw [skipSpace, List.dropWhile_cons, h]
  rfl

/-- The text of a value that is read back does not begin with a blank. -/
theorem IsReadBack.skipSpace_append {value : Json} (h : value.IsReadBack) (rest : List Char) :
  skipSpace (value.render.toList ++ rest) = value.render.toList ++ rest
  := by
  obtain ⟨c, written, hwritten, hspace, _⟩ := h.exists_cons
  rw [hwritten, List.cons_append, skipSpace_cons hspace]

/-! ### Scalars -/

/-- What begins with a digit is a number. -/
theorem parseValue_of_isDigit {c : Char} (h : c.isDigit = true) (fuel : Nat) (rest : List Char) :
  parseValue (fuel + 1) (c :: rest) = parseUnsigned false (c :: rest)
  := by
  apply parseValue.eq_9
  all_goals
    rintro _ ⟨⟩
    cases h

theorem toList_render_nat (n : Nat) :
  (integer n).render.toList = Nat.toDigits 10 n
  := by
  rw [render]
  exact Nat.toList_repr

theorem toList_render_negSucc (n : Nat) :
  (integer (Int.negSucc n)).render.toList = '-' :: Nat.toDigits 10 (n + 1)
  := by
  rw [render]
  change ("-" ++ (n + 1).repr).toList = _
  rw [String.toList_append, Nat.toList_repr]
  rfl

/-- Whole numbers are read back, with or without a sign. -/
theorem IsReadBack.integer (n : Int) :
  (Json.integer n).IsReadBack
  := by
  cases n with
  | ofNat n =>
    obtain ⟨d, ds, hds⟩ := List.exists_cons_of_ne_nil (@Nat.toDigits_ne_nil n 10)
    have hd : d.isDigit = true := Numeral.isDigit_of_mem_toDigits (hds ▸ List.mem_cons_self)
    have hwritten : (Json.integer (Int.ofNat n)).render.toList = d :: ds :=
      (toList_render_nat n).trans hds
    constructor
    · refine ⟨d, ds, hwritten, ?_, ?_⟩
      · cases hspace : isSpace d with
        | false => rfl
        | true =>
          simp only [isSpace, Bool.or_eq_true, decide_eq_true_eq] at hspace
          rcases hspace with ((rfl | rfl) | rfl) | rfl <;> cases hd
      · rintro rfl
        cases hd
    · intro fuel rest hfuel hrest
      rw [hwritten] at hfuel ⊢
      obtain ⟨fuel, rfl⟩ := Nat.exists_eq_add_of_le' (Nat.le_trans (Nat.succ_pos _) hfuel)
      have hread : parseUnsigned false (Nat.toDigits 10 n ++ rest) = some (.integer n, rest) :=
        parseUnsigned_toDigits (by simp) hrest
      rw [hds] at hread
      rw [List.cons_append, parseValue_of_isDigit hd]
      exact hread
  | negSucc n =>
    constructor
    · exact ⟨'-', _, toList_render_negSucc n, rfl, by decide⟩
    · intro fuel rest hfuel hrest
      rw [toList_render_negSucc] at hfuel ⊢
      obtain ⟨fuel, rfl⟩ := Nat.exists_eq_add_of_le' (Nat.le_trans (Nat.succ_pos _) hfuel)
      have hread : parseUnsigned true (Nat.toDigits 10 (n + 1) ++ rest)
          = some (.integer (-↑(n + 1)), rest) := parseUnsigned_toDigits (by simp) hrest
      exact hread

theorem toList_render_text (s : String) :
  (Json.text s).render.toList = '"' :: (s.toList.flatMap escaped ++ ['"'])
  := by
  rw [Json.text, render, toList_renderString]

/-- Strings are read back. -/
theorem IsReadBack.text (s : String) :
  (Json.text s).IsReadBack
  := by
  constructor
  · exact ⟨'"', _, toList_render_text s, rfl, by decide⟩
  · intro fuel rest hfuel _
    rw [toList_render_text] at hfuel ⊢
    obtain ⟨fuel, rfl⟩ := Nat.exists_eq_add_of_le' (Nat.le_trans (Nat.succ_pos _) hfuel)
    rw [List.cons_append, List.append_assoc, List.singleton_append, parseValue.eq_5,
      parseString_flatMap_escaped]
    rfl

/-! ### Lists -/

theorem renderItems_eq (items : List Json) :
  renderItems items = items.map render
  := by
  induction items with
  | nil => rfl
  | cons item items ih => rw [renderItems, ih, List.map_cons]

/-- The written form of some values, with commas between them. -/
def writtenItems (items : List Json) : List Char :=
  [','].intercalate (items.map fun item => item.render.toList)

/-- A list is its items with commas between them, in brackets. -/
theorem toList_render_array (items : List Json) :
  (Json.array items).render.toList = '[' :: (writtenItems items ++ [']'])
  := by
  rw [render, renderItems_eq, String.toList_append, String.toList_append, String.toList_intercalate,
    List.map_map]
  rfl

theorem writtenItems_singleton (item : Json) :
  writtenItems [item] = item.render.toList
  := List.intercalate_singleton

theorem writtenItems_cons_cons (item next : Json) (items : List Json) :
  writtenItems (item :: next :: items)
    = item.render.toList ++ ',' :: writtenItems (next :: items)
  := by
  rw [writtenItems, List.map_cons, List.map_cons, List.intercalate_cons_cons, List.append_assoc]
  rfl

/-- Some values begin like the first of them. -/
theorem exists_writtenItems_eq_cons {item : Json} (h : item.IsReadBack) (items : List Json) :
  ∃ c rest, writtenItems (item :: items) = c :: rest ∧ isSpace c = false ∧ c ≠ ']'
  := by
  obtain ⟨c, rest, hwritten, hc⟩ := h.exists_cons
  cases items with
  | nil => exact ⟨c, rest, by rw [writtenItems_singleton, hwritten], hc⟩
  | cons next items => exact ⟨c, _, by rw [writtenItems_cons_cons, hwritten, List.cons_append], hc⟩

/-- The items of a list are read back up to the bracket behind them. -/
theorem parseItems_append {item : Json} {items : List Json} {fuel : Nat} (rest : List Char)
    (h : ∀ value ∈ item :: items, value.IsReadBack)
    (hfuel : (writtenItems (item :: items)).length < fuel) :
  parseItems fuel (writtenItems (item :: items) ++ ']' :: rest) = some (item :: items, rest)
  := by
  obtain ⟨fuel, rfl⟩ := Nat.exists_eq_add_of_le' (Nat.succ_le_of_lt (Nat.zero_lt_of_lt hfuel))
  obtain ⟨hitem, hitems⟩ := List.forall_mem_cons.mp h
  induction items generalizing item fuel with
  | nil =>
    rw [writtenItems_singleton] at hfuel ⊢
    rw [parseItems, hitem.parseValue_append (by omega) (endsNumber_cons rest (by decide))]
    rfl
  | cons next items ih =>
    rw [writtenItems_cons_cons] at hfuel ⊢
    rw [List.length_append, List.length_cons] at hfuel
    rw [List.append_assoc, List.cons_append, parseItems,
      hitem.parseValue_append (by omega) (endsNumber_cons _ (by decide))]
    obtain ⟨hnext, hitems'⟩ := List.forall_mem_cons.mp hitems
    obtain ⟨fuel, rfl⟩ := Nat.exists_eq_add_of_le' (Nat.succ_le_of_lt (by omega : 0 < fuel))
    have hread := ih hitems fuel (by omega) hnext hitems'
    obtain ⟨c, more, hmore, hspace, _⟩ := exists_writtenItems_eq_cons hnext items
    rw [hmore, List.cons_append] at hread ⊢
    change (parseItems _ (skipSpace (c :: (more ++ ']' :: rest)))).map _ = _
    rw [skipSpace_cons hspace, hread]
    rfl

/-- A list of values that are read back is read back. -/
theorem IsReadBack.array {items : List Json} (h : ∀ item ∈ items, item.IsReadBack) :
  (Json.array items).IsReadBack
  := by
  constructor
  · exact ⟨'[', _, toList_render_array items, rfl, by decide⟩
  · intro fuel rest hfuel _
    rw [toList_render_array] at hfuel ⊢
    rw [List.length_cons, List.length_append, List.length_singleton] at hfuel
    obtain ⟨fuel, rfl⟩ := Nat.exists_eq_add_of_le' (Nat.le_trans (Nat.succ_pos _) hfuel)
    rw [List.cons_append, List.append_assoc, List.singleton_append, parseValue.eq_6]
    cases items with
    | nil => rfl
    | cons item items =>
      have hlength : (writtenItems (item :: items)).length < fuel := by omega
      have hread := parseItems_append rest h hlength
      obtain ⟨c, more, hmore, hspace, hc⟩ :=
        exists_writtenItems_eq_cons (h item List.mem_cons_self) items
      rw [hmore, List.cons_append] at hread ⊢
      rw [skipSpace_cons hspace]
      split
      · next hend =>
        apply absurd (List.cons.inj hend).1 hc
      · rw [hread]
        rfl

/-! ### Records -/

theorem renderMembers_eq (members : List (String × Json)) :
  renderMembers (members.map fun m => (some m.1, m.2))
    = members.map fun m => renderString (some m.1) ++ ":" ++ m.2.render
  := by
  induction members with
  | nil => rfl
  | cons member members ih =>
    obtain ⟨name, value⟩ := member
    rw [List.map_cons, renderMembers, ih, List.map_cons]

/-- The written form of a value with its name. -/
def writtenMember (member : String × Json) : List Char :=
  '"' :: (member.1.toList.flatMap escaped ++ '"' :: ':' :: member.2.render.toList)

/-- The written form of some values with their names, with commas between them. -/
def writtenMembers (members : List (String × Json)) : List Char :=
  [','].intercalate (members.map writtenMember)

/-- A record is its members with commas between them, in braces. -/
theorem toList_render_struct (members : List (String × Json)) :
  (Json.struct members).render.toList = '\x7b' :: (writtenMembers members ++ ['\x7d'])
  := by
  have hmember : ∀ member : String × Json,
      (renderString (some member.1) ++ ":" ++ member.2.render).toList = writtenMember member := by
    intro member
    rw [String.toList_append, String.toList_append, toList_renderString, writtenMember]
    simp
  rw [Json.struct, render, renderMembers_eq, String.toList_append, String.toList_append,
    String.toList_intercalate, List.map_map, writtenMembers]
  simp only [Function.comp_def, hmember]
  rfl

theorem writtenMembers_singleton (member : String × Json) :
  writtenMembers [member] = writtenMember member
  := List.intercalate_singleton

theorem writtenMembers_cons_cons (member next : String × Json) (members : List (String × Json)) :
  writtenMembers (member :: next :: members)
    = writtenMember member ++ ',' :: writtenMembers (next :: members)
  := by
  rw [writtenMembers, List.map_cons, List.map_cons, List.intercalate_cons_cons, List.append_assoc]
  rfl

theorem exists_writtenMembers_eq_cons (member : String × Json) (members : List (String × Json)) :
  ∃ rest, writtenMembers (member :: members) = '"' :: rest
  := by
  cases members with
  | nil => exact ⟨_, writtenMembers_singleton member⟩
  | cons next members => exact ⟨_, writtenMembers_cons_cons member next members⟩

/-- The value of a member is shorter than the member, so that there is fuel for it. -/
theorem length_render_le (member : String × Json) :
  member.2.render.toList.length ≤ (writtenMember member).length
  := by
  simp only [writtenMember, List.length_cons, List.length_append]
  omega

section

variable {text rest rest' : List Char} {name : Option String} {value : Json} {fuel : Nat}

/-- The last of some values with their names is read. -/
theorem parseMembers_end (hname : parseString text = some (name, ':' :: rest))
    (hvalue : parseValue fuel (skipSpace rest) = some (value, '\x7d' :: rest')) :
  parseMembers (fuel + 1) ('"' :: text) = some ([(name, value)], rest')
  := by
  have hcolon : skipSpace (':' :: rest) = ':' :: rest := rfl
  have hend : skipSpace ('\x7d' :: rest') = '\x7d' :: rest' := rfl
  simp only [parseMembers, hname, hcolon, hvalue, hend]

/-- A value with its name is read, and then the ones behind the comma. -/
theorem parseMembers_comma (hname : parseString text = some (name, ':' :: rest))
    (hvalue : parseValue fuel (skipSpace rest) = some (value, ',' :: rest')) :
  parseMembers (fuel + 1) ('"' :: text)
    = (parseMembers fuel (skipSpace rest')).map fun read => ((name, value) :: read.1, read.2)
  := by
  have hcolon : skipSpace (':' :: rest) = ':' :: rest := rfl
  have hcomma : skipSpace (',' :: rest') = ',' :: rest' := rfl
  simp only [parseMembers, hname, hcolon, hvalue, hcomma]

end

/-- A member is its name, a colon and its value. -/
theorem writtenMember_append (member : String × Json) (rest : List Char) :
  writtenMember member ++ rest
    = '"' :: (member.1.toList.flatMap escaped ++ '"' :: ':' :: (member.2.render.toList ++ rest))
  := by
  simp [writtenMember]

/-- A value that is read back is read back behind blanks, too. -/
theorem IsReadBack.parseValue_skipSpace {value : Json} (h : value.IsReadBack) {fuel : Nat}
    {rest : List Char} (hfuel : value.render.toList.length ≤ fuel) (hrest : EndsNumber rest) :
  parseValue fuel (skipSpace (value.render.toList ++ rest)) = some (value, rest)
  := by
  rw [h.skipSpace_append, h.parseValue_append hfuel hrest]

/-- The members of a record are read back up to the brace behind them. -/
theorem parseMembers_append {member : String × Json} {members : List (String × Json)} {fuel : Nat}
    (rest : List Char) (h : ∀ m ∈ member :: members, m.2.IsReadBack)
    (hfuel : (writtenMembers (member :: members)).length < fuel) :
  parseMembers fuel (writtenMembers (member :: members) ++ '\x7d' :: rest)
    = some ((member :: members).map fun m => (some m.1, m.2), rest)
  := by
  obtain ⟨fuel, rfl⟩ := Nat.exists_eq_add_of_le' (Nat.succ_le_of_lt (Nat.zero_lt_of_lt hfuel))
  obtain ⟨hmember, hmembers⟩ := List.forall_mem_cons.mp h
  induction members generalizing member fuel with
  | nil =>
    rw [writtenMembers_singleton] at hfuel ⊢
    rw [writtenMember_append]
    have hlength := length_render_le member
    apply parseMembers_end (parseString_flatMap_escaped _ _)
    exact hmember.parseValue_skipSpace (by omega) (endsNumber_cons rest (by decide))
  | cons next members ih =>
    rw [writtenMembers_cons_cons] at hfuel ⊢
    rw [List.length_append, List.length_cons] at hfuel
    have hlength := length_render_le member
    have hends : EndsNumber (',' :: (writtenMembers (next :: members) ++ '\x7d' :: rest)) :=
      endsNumber_cons _ (by decide)
    have hvalue := hmember.parseValue_skipSpace (by omega : _ ≤ fuel) hends
    rw [List.append_assoc, List.cons_append, writtenMember_append,
      parseMembers_comma (parseString_flatMap_escaped _ _) hvalue]
    obtain ⟨hnext, hmembers'⟩ := List.forall_mem_cons.mp hmembers
    obtain ⟨fuel, rfl⟩ := Nat.exists_eq_add_of_le' (Nat.succ_le_of_lt (by omega : 0 < fuel))
    have hread := ih hmembers fuel (by omega) hnext hmembers'
    obtain ⟨more, hmore⟩ := exists_writtenMembers_eq_cons next members
    rw [hmore, List.cons_append] at hread ⊢
    rw [skipSpace_cons rfl, hread]
    rfl

/-- A record of values that are read back is read back. -/
theorem IsReadBack.struct {members : List (String × Json)} (h : ∀ m ∈ members, m.2.IsReadBack) :
  (Json.struct members).IsReadBack
  := by
  constructor
  · exact ⟨'\x7b', _, toList_render_struct members, rfl, by decide⟩
  · intro fuel rest hfuel _
    rw [toList_render_struct] at hfuel ⊢
    rw [List.length_cons, List.length_append, List.length_singleton] at hfuel
    obtain ⟨fuel, rfl⟩ := Nat.exists_eq_add_of_le' (Nat.le_trans (Nat.succ_pos _) hfuel)
    rw [List.cons_append, List.append_assoc, List.singleton_append, parseValue.eq_7]
    cases members with
    | nil => rfl
    | cons member members =>
      have hlength : (writtenMembers (member :: members)).length < fuel := by omega
      have hread := parseMembers_append rest h hlength
      obtain ⟨more, hmore⟩ := exists_writtenMembers_eq_cons member members
      rw [hmore, List.cons_append] at hread ⊢
      rw [skipSpace_cons rfl]
      change (parseMembers fuel ('"' :: (more ++ '\x7d' :: rest))).map _ = _
      rw [hread]
      rfl

/-! ### Texts -/

/-- The text of a value that is read back denotes it. -/
theorem IsReadBack.parse?_render {value : Json} (h : value.IsReadBack) :
  parse? value.render = some value
  := by
  have hskip := h.skipSpace_append []
  have hfuel : value.render.toList.length ≤ 2 * value.render.toList.length + 1 := by omega
  have hread := h.parseValue_append hfuel endsNumber_nil
  rw [List.append_nil] at hskip hread
  rw [parse?, hskip, hread]
  rfl

end Bitcoin.Json
