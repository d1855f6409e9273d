import Bitcoin.Text.Blank

/-!
# Words and the texts that they make

A text without blanks is a word, and a blank separates the words on its two sides. Texts that
are put together with blanks between them therefore have the words of each, in order
(`Text.words_intercalate`). A text without blanks has none to be trimmed (`Text.trim_of_solid`).
-/

namespace Bitcoin.Text

/-- Whether a text has no blanks. -/
def Solid (text : List Char) : Prop :=
  ∀ c ∈ text, isBlank c = false

theorem wordsAfter_of_solid {word partialWord : List Char} (h : Solid word)
    (hne : partialWord ++ word ≠ []) :
  wordsAfter partialWord word = [partialWord.reverse ++ word]
  := by
  induction word generalizing partialWord with
  | nil =>
    have hpartial : partialWord ≠ [] := by rwa [List.append_nil] at hne
    rw [wordsAfter, if_neg (by rwa [List.isEmpty_iff]), List.append_nil]
  | cons c word ih =>
    obtain ⟨hc, hword⟩ := List.forall_mem_cons.mp h
    rw [wordsAfter, if_neg (by rw [hc]; decide), ih hword (List.cons_ne_nil _ _),
      List.reverse_cons, List.append_assoc, List.singleton_append]

theorem words_of_solid {word : List Char} (h : Solid word) (hne : word ≠ []) :
  words word = [word]
  := wordsAfter_of_solid h hne

theorem wordsAfter_append_blank {blank : Char} (hblank : isBlank blank = true)
    (partialWord left right : List Char) :
  wordsAfter partialWord (left ++ blank :: right) = wordsAfter partialWord left ++ words right
  := by
  induction left generalizing partialWord with
  | nil =>
    rw [List.nil_append, wordsAfter.eq_2, if_pos hblank, wordsAfter, words]
    split <;> rfl
  | cons c left ih =>
    rw [List.cons_append, wordsAfter.eq_2, wordsAfter.eq_2, ih, ih]
    split
    · split <;> rfl
    · rfl

/-- A blank separates words. -/
theorem words_append_blank {blank : Char} (hblank : isBlank blank = true)
    (left right : List Char) :
  words (left ++ blank :: right) = words left ++ words right
  := wordsAfter_append_blank hblank [] left right

theorem words_intercalate {blank : Char} (hblank : isBlank blank = true)
    (texts : List (List Char)) :
  words ([blank].intercalate texts) = texts.flatMap words
  := by
  induction texts with
  | nil => rfl
  | cons text texts ih =>
    cases texts with
    | nil => rw [List.intercalate_singleton, List.flatMap_singleton]
    | cons text' texts =>
      rw [List.intercalate_cons_cons, List.append_assoc, List.singleton_append,
        words_append_blank hblank, ih]
      rfl

/-! ### Trimming and splitting -/

/-- Nothing is dropped from a text whose first character stays. -/
theorem dropWhile_of_head? {drops : Char → Bool} {text : List Char}
    (h : ∀ c ∈ text.head?, drops c = false) :
  text.dropWhile drops = text
  := by
  cases text with
  | nil => rfl
  | cons c text => rw [List.dropWhile_cons, h c rfl, if_neg Bool.false_ne_true]

theorem trim_of_solid {text : List Char} (h : Solid text) :
  trim text = text
  := by
  have hfront : text.dropWhile isBlank = text :=
    dropWhile_of_head? fun c hc => h c (List.mem_of_mem_head? hc)
  have hback : text.reverse.dropWhile isBlank = text.reverse :=
    dropWhile_of_head? fun c hc => h c (List.mem_reverse.mp (List.mem_of_mem_head? hc))
  rw [trim, hfront, hback, List.reverse_reverse]

theorem splitAt_eq_splitOn (separator : Char) (text : List Char) :
  splitAt separator text = text.splitOn separator
  := by
  induction text with
  | nil => rfl
  | cons c text ih =>
    rw [splitAt, List.splitOn_cons_eq_if_modifyHead, ih]
    simp only [beq_iff_eq]
    split
    · rfl
    · cases hpieces : text.splitOn separator with
      | nil => apply absurd hpieces (List.splitOn_ne_nil separator text)
      | cons piece pieces => rfl

end Bitcoin.Text
