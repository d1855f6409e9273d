import Bitcoin.ExtendedKey.Path
import Bitcoin.Proofs.Except
import Bitcoin.Proofs.Text.Blank
import Bitcoin.Proofs.Text.Numeral

/-!
# Derivation paths are read back

The text of a path is components with slashes between them: an `m`, and numerals with or without a
mark. A component has no blanks and no slashes in it (`DerivationPath.IsComponent`), so that the
text falls into the components that it was put together from
(`DerivationPath.parseChars_intercalate`), and an index is read back from its component. Each path
is read back from its text but the relative one without indices (`DerivationPath.parse_render`),
and that one is read from no text (`DerivationPath.ne_of_parse`).
-/

namespace Bitcoin.DerivationPath

open Text Numeral

/-! ### Components -/

/-- Whether a text can stand between two slashes of a written path. -/
structure IsComponent (component : List Char) : Prop where
  ne_nil : component ≠ []
  solid : Solid component
  slash_notMem : '/' ∉ component

section Joined

variable {components : List (List Char)}

/-- Joined components begin and end without blanks. -/
theorem solid_intercalate (h : ∀ component ∈ components, IsComponent component) :
  Solid (['/'].intercalate components)
  := by
  induction components with
  | nil => exact List.forall_mem_nil _
  | cons component components ih =>
    obtain ⟨hcomponent, hrest⟩ := List.forall_mem_cons.mp h
    cases components with
    | nil =>
      rw [List.intercalate_singleton]
      apply hcomponent.solid
    | cons next rest =>
      have hslash : ∀ c ∈ ['/'], isBlank c = false := by
        rw [List.forall_mem_singleton]
        decide
      rw [List.intercalate_cons_cons, Solid, List.forall_mem_append, List.forall_mem_append]
      exact ⟨⟨hcomponent.solid, hslash⟩, ih hrest⟩

/-- What components are joined to does not end in a slash. -/
theorem exists_getLast?_intercalate (hne : components ≠ [])
    (h : ∀ component ∈ components, IsComponent component) :
  ∃ c, (['/'].intercalate components).getLast? = some c ∧ c ≠ '/'
  := by
  induction components with
  | nil => apply absurd rfl hne
  | cons component components ih =>
    obtain ⟨hcomponent, hrest⟩ := List.forall_mem_cons.mp h
    cases components with
    | nil =>
      rw [List.intercalate_singleton, List.getLast?_eq_getLast_of_ne_nil hcomponent.ne_nil]
      refine ⟨_, rfl, fun hslash => hcomponent.slash_notMem ?_⟩
      rw [← hslash]
      apply List.getLast_mem
    | cons next rest =>
      obtain ⟨c, hlast, hc⟩ := ih (List.cons_ne_nil _ _) hrest
      use c
      rw [List.intercalate_cons_cons, List.getLast?_append, hlast]
      exact ⟨rfl, hc⟩

/-- A text falls into the components that it was put together from. -/
theorem parseChars_intercalate (hne : components ≠ [])
    (h : ∀ component ∈ components, IsComponent component) :
  parseChars (['/'].intercalate components) = (do
    let absolute := decide (components.head? = some ['m'])
    let indices ← (if absolute then components.tail else components).mapM parseComponent
    .ok ⟨absolute, indices⟩)
  := by
  have hend : (['/'].intercalate components).reverse.dropWhile (· = '/')
      = (['/'].intercalate components).reverse := by
    apply dropWhile_of_head?
    obtain ⟨last, hlast, hslash⟩ := exists_getLast?_intercalate hne h
    rw [List.head?_reverse, hlast]
    rintro _ ⟨⟩
    exact decide_eq_false hslash
  have hsplit : splitAt '/' (['/'].intercalate components) = components := by
    rw [splitAt_eq_splitOn]
    exact List.splitOn_intercalate '/' (fun component hc => (h component hc).slash_notMem) hne
  rw [parseChars, trim_of_solid (solid_intercalate h), hend, List.reverse_reverse, hsplit]

end Joined

/-! ### Indices -/

/-- The component that is written for an index. -/
def written (index : UInt32) : List Char :=
  if isHardened index then Nat.toDigits 10 (index.toNat - 0x80000000) ++ ['\'']
  else Nat.toDigits 10 index.toNat

theorem toList_renderIndex (index : UInt32) :
  (renderIndex index).toList = written index
  := by
  rw [renderIndex, written]
  split
  · rw [String.toList_append]
    apply congrArg (· ++ ['\'']) Nat.toList_repr
  · apply Nat.toList_repr

/-- Digits are neither blanks nor separators nor marks. -/
theorem of_isDigit {c : Char} (h : c.isDigit = true) :
  isBlank c = false ∧ c ≠ '/' ∧ c ≠ 'm' ∧ ¬ (c = '\'' ∨ c = 'h' ∨ c = 'H')
  := by
  have hc : 48 ≤ c.toNat ∧ c.toNat ≤ 57 := by
    simpa [Char.isDigit, UInt32.le_iff_toNat_le] using h
  have hne : ∀ d : Char, ¬ (48 ≤ d.toNat ∧ d.toNat ≤ 57) → c ≠ d := by
    rintro d hd rfl
    apply hd hc
  refine ⟨?_, hne '/' (by decide), hne 'm' (by decide), ?_⟩
  · simp only [isBlank]
    simp
    omega
  · rw [not_or, not_or]
    exact ⟨hne '\'' (by decide), hne 'h' (by decide), hne 'H' (by decide)⟩

theorem isComponent_toDigits (n : Nat) :
  IsComponent (Nat.toDigits 10 n)
  := by
  refine ⟨Nat.toDigits_ne_nil, ?_, ?_⟩
  · intro c hc
    exact (of_isDigit (isDigit_of_mem_toDigits hc)).1
  · intro hslash
    exact (of_isDigit (isDigit_of_mem_toDigits hslash)).2.1 rfl

/-- What is written for an index is a component. -/
theorem isComponent_written (index : UInt32) :
  IsComponent (written index)
  := by
  rw [written]
  split
  · obtain ⟨hne, hsolid, hslash⟩ := isComponent_toDigits (index.toNat - 0x80000000)
    refine ⟨List.append_ne_nil_of_left_ne_nil hne _, ?_, ?_⟩
    · rw [Solid, List.forall_mem_append, List.forall_mem_singleton]
      exact ⟨hsolid, by decide⟩
    · rw [List.mem_append, not_or, List.mem_singleton]
      exact ⟨hslash, by decide⟩
  · apply isComponent_toDigits

/-- A component of digits is not taken for the beginning of an absolute path. -/
theorem written_ne (index : UInt32) :
  written index ≠ ['m']
  := by
  intro hm
  have hmem : ∀ n rest, Nat.toDigits 10 n ++ rest ≠ ['m'] := by
    intro n rest hm
    obtain ⟨d, ds, hds⟩ := List.exists_cons_of_ne_nil (@Nat.toDigits_ne_nil n 10)
    rw [hds] at hm
    obtain rfl := (List.cons.inj hm).1
    have hdigit := isDigit_of_mem_toDigits (hds ▸ List.mem_cons_self)
    exact (of_isDigit hdigit).2.2.1 rfl
  rw [written] at hm
  split at hm
  · apply hmem _ _ hm
  · apply hmem index.toNat []
    rwa [List.append_nil]

/-- The mark behind a number is split off. -/
theorem splitMark_concat (digits : List Char) :
  splitMark (digits ++ ['\'']) = (digits, true)
  := by
  rw [splitMark, List.getLast?_concat]
  simp

/-- A number without a mark is not changed. -/
theorem splitMark_toDigits (n : Nat) :
  splitMark (Nat.toDigits 10 n) = (Nat.toDigits 10 n, false)
  := by
  rw [splitMark]
  split
  · next c hc =>
    have hdigit := isDigit_of_mem_toDigits (List.mem_of_getLast? hc)
    rw [if_neg (of_isDigit hdigit).2.2.2]
  · rfl

/-- The upper half of the indices is hardened. -/
theorem isHardened_iff {index : UInt32} :
  isHardened index = true ↔ 0x80000000 ≤ index.toNat
  := by
  simp [isHardened, UInt32.le_iff_toNat_le]

/-- A component denotes the index with its number and its mark. -/
theorem parseComponent_of_parse? {component digits : List Char} {hardened : Bool} {n : Nat}
    (hmark : splitMark component = (digits, hardened))
    (hdigits : parse? 10 0x80000000 digits = some n) :
  parseComponent component = .ok (UInt32.ofNat (if hardened then n + 0x80000000 else n))
  := by
  rw [parseComponent, hmark]
  simp only [hdigits]

/-- An index is read back from its component. -/
theorem parseComponent_written (index : UInt32) :
  parseComponent (written index) = .ok index
  := by
  rw [written]
  split
  · next h =>
    have hle := isHardened_iff.mp h
    have hlt : index.toNat - 0x80000000 < 0x80000000 := by
      have := index.toNat_lt
      omega
    rw [parseComponent_of_parse? (splitMark_concat _) (parse?_toDigits hlt), if_pos rfl,
      Nat.sub_add_cancel hle, UInt32.ofNat_toNat]
  · next h =>
    have hlt := Nat.lt_of_not_le (mt isHardened_iff.mpr h)
    rw [parseComponent_of_parse? (splitMark_toDigits _) (parse?_toDigits hlt),
      if_neg Bool.false_ne_true, UInt32.ofNat_toNat]

/-- All indices of a path are read back from their components. -/
theorem mapM_parseComponent_written (indices : List UInt32) :
  (indices.map written).mapM parseComponent = .ok indices
  := by
  rw [mapM_eq_ok_iff, List.forall₂_map_left_iff, List.forall₂_same]
  exact fun index _ => parseComponent_written index

/-! ### Paths -/

/-- The components of the text of a path. -/
def components (path : DerivationPath) : List (List Char) :=
  (if path.absolute then [['m']] else []) ++ path.indices.map written

theorem toList_render (path : DerivationPath) :
  path.render.toList = ['/'].intercalate path.components
  := by
  have hindices : (path.indices.map renderIndex).map String.toList = path.indices.map written := by
    rw [List.map_map]
    exact List.map_congr_left fun index _ => toList_renderIndex index
  rw [render, String.toList_intercalate, List.map_append, hindices, components]
  cases path.absolute <;> rfl

theorem isComponent_of_mem {path : DerivationPath} :
  ∀ component ∈ path.components, IsComponent component
  := by
  have hm : IsComponent ['m'] := by
    refine ⟨List.cons_ne_nil _ _, ?_, by decide⟩
    rw [Solid, List.forall_mem_singleton]
    decide
  rw [components, List.forall_mem_append, List.forall_mem_map]
  refine ⟨?_, fun index _ => isComponent_written index⟩
  split
  · rwa [List.forall_mem_singleton]
  · exact List.forall_mem_nil _

/-- A path is read back from its text, unless it is relative and has no indices. -/
theorem parse_render {path : DerivationPath} (h : path ≠ ⟨false, []⟩) :
  parse path.render = .ok path
  := by
  obtain ⟨absolute, indices⟩ := path
  have hne : components ⟨absolute, indices⟩ ≠ [] := by
    rintro hnil
    obtain ⟨habsolute, hindices⟩ := List.append_eq_nil_iff.mp hnil
    apply h
    cases absolute with
    | true => cases habsolute
    | false =>
      obtain rfl := List.map_eq_nil_iff.mp hindices
      rfl
  rw [parse, toList_render, parseChars_intercalate hne isComponent_of_mem]
  cases absolute with
  | true => apply bind_of_eq_ok (mapM_parseComponent_written indices)
  | false =>
    have hhead : (components ⟨false, indices⟩).head? ≠ some ['m'] := by
      cases indices with
      | nil => nofun
      | cons index indices => exact fun hm => written_ne index (Option.some.inj hm)
    rw [decide_eq_false hhead]
    apply bind_of_eq_ok (mapM_parseComponent_written indices)

/-- The relative path without indices is read from no text. -/
theorem ne_of_parse {text : String} {path : DerivationPath} (h : parse text = .ok path) :
  path ≠ ⟨false, []⟩
  := by
  rintro rfl
  obtain ⟨indices, hindices, h⟩ := bind_eq_ok_iff.mp h
  obtain ⟨habsolute, rfl⟩ := DerivationPath.mk.inj (Except.ok.inj h)
  rw [habsolute, if_neg Bool.false_ne_true, splitAt_eq_splitOn] at hindices
  have hlength := (mapM_eq_ok_iff.mp hindices).length_eq
  apply List.splitOn_ne_nil _ _ (List.eq_nil_of_length_eq_zero hlength)

/-- Each path but the relative one without indices is read back from its text, and so is each path
that is read from a text, whatever the marks, the blanks and the slashes in that. -/
theorem parse_render_eq :
  (∀ path : DerivationPath, path ≠ ⟨false, []⟩ → parse path.render = .ok path)
    ∧ ∀ (text : String) (path : DerivationPath), parse text = .ok path →
      parse path.render = .ok path
  := by
  constructor
  · exact fun _ => parse_render
  · intro text path h
    apply parse_render (ne_of_parse h)

/-- The greatest index and the least one that is hardened, in a path and in a text with other marks
than are written. -/
theorem parse_render_eq_marks :
  let path : DerivationPath := ⟨true, [0xffffffff, 0x80000000, 0]⟩
  let text := " m/2147483647h/+0H/00//\n"
  path ≠ ⟨false, []⟩ ∧ path.render = "m/2147483647'/0'/0" ∧ parse "m/2147483647'/0'/0" = .ok path
    ∧ parse text = .ok path ∧ parse path.render = .ok path
  := by
  intro path text
  have hne : path ≠ ⟨false, []⟩ := by decide
  have hrender : path.render = "m/2147483647'/0'/0" := by decide +kernel
  have htext : parse text = .ok path := by
    apply eq_ok_of_toOption
    decide +kernel
  exact ⟨hne, hrender, hrender ▸ parse_render_eq.1 path hne, htext,
    parse_render_eq.2 text path htext⟩

end Bitcoin.DerivationPath
