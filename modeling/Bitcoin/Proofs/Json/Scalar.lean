import Bitcoin.Json.Parser
import Bitcoin.Proofs.Text.Numeral

/-!
# Numbers and strings are read back

The decimal digits of a number are read back, unless a number goes on behind them
(`Json.EndsNumber`): they have no zero in front that could be left out. A character of a string is
read back from what is written for it, be it itself, an escape or its number
(`Json.parseUnits_escaped`), and none of them is half of a surrogate pair.
-/

namespace Bitcoin

namespace Json

/-- Whether a text does not continue a number. -/
def EndsNumber (rest : List Char) : Prop :=
  ∀ c ∈ rest.head?, c.isDigit = false ∧ c ≠ '.' ∧ c ≠ 'e' ∧ c ≠ 'E'

/-- All digits in front of the end of a number are taken. -/
theorem takeDigits?_append {digits rest : List Char} (h : ∀ c ∈ digits, c.isDigit = true)
    (hne : digits ≠ []) (hrest : EndsNumber rest) :
  takeDigits? (digits ++ rest) = some (digits, rest)
  := by
  have htake : (digits ++ rest).takeWhile Char.isDigit = digits := by
    rw [List.takeWhile_append_of_pos h]
    cases rest with
    | nil => simp
    | cons c rest =>
      have hc := (hrest c rfl).1
      simp [hc]
  rw [takeDigits?, htake]
  simp [hne]

/-- A whole number has no fraction. -/
theorem takeFraction?_of_endsNumber {rest : List Char} (h : EndsNumber rest) :
  takeFraction? rest = some ([], rest)
  := by
  unfold takeFraction?
  split
  · apply absurd rfl (h '.' rfl).2.1
  · rfl

theorem takeExponent?_of_endsNumber {rest : List Char} (h : EndsNumber rest) :
  takeExponent? rest = some ([], rest)
  := by
  cases rest with
  | nil => rfl
  | cons c rest =>
    obtain ⟨_, _, hlower, hupper⟩ := h c rfl
    rw [takeExponent?, if_neg (by simp [hlower, hupper])]

/-- A number is read back, behind its sign. Minus zero is none. -/
theorem parseUnsigned_toDigits {negative : Bool} {n : Nat} {rest : List Char}
    (h : ¬ (negative = true ∧ n = 0)) (hrest : EndsNumber rest) :
  parseUnsigned negative (Nat.toDigits 10 n ++ rest)
    = some (.integer (if negative then -(n : Int) else n), rest)
  := by
  have hdigits := takeDigits?_append (fun _ => Numeral.isDigit_of_mem_toDigits)
    (@Nat.toDigits_ne_nil n 10) hrest
  have hzero : ¬ ((Nat.toDigits 10 n).head? = some '0' ∧ (Nat.toDigits 10 n).length > 1) := by
    rintro ⟨hhead, hlong⟩
    rw [Numeral.head?_toDigits hhead] at hlong
    simp at hlong
  have hbound : n < Nat.pow 10 (Nat.toDigits 10 n).length :=
    (Nat.length_toDigits_le_iff (by decide) Nat.length_toDigits_pos).mp (Nat.le_refl _)
  simp only [parseUnsigned, hdigits, Option.bind_eq_bind, Option.bind_some, if_neg hzero,
    takeFraction?_of_endsNumber hrest, takeExponent?_of_endsNumber hrest,
    Numeral.parse?_toDigits hbound]
  simp [h]

/-! ### Strings -/

/-- A character as it is written in a string. -/
def escaped (c : Char) : List Char :=
  ((escape? c).getD (String.singleton c)).toList

/-- A string is written between quotes, with each character escaped if need be. -/
theorem toList_renderString (s : String) :
  (renderString (some s)).toList = '"' :: (s.toList.flatMap escaped ++ ['"'])
  := by
  have hfold : ∀ (written : String) (chars : List Char),
      (chars.foldl (fun written c => written ++ (escape? c).getD (String.singleton c))
        written).toList = written.toList ++ chars.flatMap escaped := by
    intro written chars
    induction chars generalizing written with
    | nil => simp
    | cons c chars ih =>
      rw [List.foldl_cons, ih, String.toList_append, List.append_assoc, List.flatMap_cons]
      rfl
  rw [renderString, String.toList_append, String.foldl_eq_foldl_toList, hfold]
  rfl

/-- The four digits of a control character denote it. -/
theorem exists_hex_control {n : Nat} (h : n < 0x20) :
  ∃ a b c d, (Numeral.hex 4 n).toList = [a, b, c, d] ∧ unit? a b c d = some n
  := by
  have hall : ∀ n < 0x20, (Numeral.hex 4 n).toList.length = 4
      ∧ (Numeral.hex 4 n).toList.mapM (Numeral.digitValue? 16) = some [0, 0, n / 16, n % 16] := by
    decide +kernel
  obtain ⟨hlength, hdigits⟩ := hall n h
  match hhex : (Numeral.hex 4 n).toList, hlength with
  | [a, b, c, d], _ =>
    refine ⟨a, b, c, d, rfl, ?_⟩
    rw [unit?, ← hhex, hdigits]
    simp [Numeral.ofDigits]
    omega

/-- A character is read back from what is written for it. -/
theorem parseUnits_escaped (done : List Nat) (c : Char) (rest : List Char) :
  parseUnits done (escaped c ++ rest) = parseUnits (c.toNat :: done) rest
  := by
  by_cases hspecial : c ∈ ['"', '\\', '\n', '\r', '\t', '\x08', '\x0c']
  · simp only [List.mem_cons, List.not_mem_nil, or_false] at hspecial
    rcases hspecial with rfl | rfl | rfl | rfl | rfl | rfl | rfl <;> rfl
  · simp only [List.mem_cons, List.not_mem_nil, or_false, not_or] at hspecial
    have hescape : escape? c
        = if c.toNat < 0x20 then some ("\\u" ++ Numeral.hex 4 c.toNat) else none := by
      simp [escape?, hspecial]
    rw [escaped, hescape]
    split
    · next hcontrol =>
      obtain ⟨a, b, c', d, hhex, hunit⟩ := exists_hex_control hcontrol
      rw [Option.getD_some, String.toList_append, hhex]
      change parseUnits done ('\\' :: 'u' :: a :: b :: c' :: d :: rest) = _
      rw [parseUnits, hunit]
    · next hcontrol =>
      rw [Option.getD_none, String.toList_singleton, List.singleton_append,
        parseUnits.eq_5 _ _ _ hspecial.1 (fun _ _ _ _ _ h _ => hspecial.2.1 h)
          (fun _ _ h _ => hspecial.2.1 h), if_neg hcontrol]

/-- Escaped characters are read back up to the quote behind them. -/
theorem parseUnits_flatMap_escaped (done : List Nat) (chars rest : List Char) :
  parseUnits done (chars.flatMap escaped ++ '"' :: rest)
    = some (done.reverse ++ chars.map Char.toNat, rest)
  := by
  induction chars generalizing done with
  | nil => simp [parseUnits]
  | cons c chars ih =>
    rw [List.flatMap_cons, List.append_assoc, parseUnits_escaped, ih]
    simp

/-- Characters are no halves of a surrogate pair. -/
theorem joinPairs?_map_toNat (done chars : List Char) :
  joinPairs? done (chars.map Char.toNat) = some (done.reverse ++ chars)
  := by
  have hvalid : ∀ c : Char, c.toNat < 0xd800 ∨ 0xe000 ≤ c.toNat := by
    intro c
    rcases c.valid with hlow | ⟨hhigh, _⟩
    · exact .inl hlow
    · exact .inr hhigh
  induction chars generalizing done with
  | nil => simp [joinPairs?]
  | cons c chars ih =>
    cases chars with
    | nil => simp [joinPairs?, hvalid]
    | cons c' chars =>
      have hrest := ih (c :: done)
      rw [List.map_cons] at hrest
      rw [List.map_cons, List.map_cons, joinPairs?, if_pos (hvalid c), Char.ofNat_toNat, hrest,
        List.reverse_cons, List.append_assoc, List.singleton_append]

/-- A string is read back. -/
theorem parseString_flatMap_escaped (s : String) (rest : List Char) :
  parseString (s.toList.flatMap escaped ++ '"' :: rest) = some (some s, rest)
  := by
  rw [parseString, parseUnits_flatMap_escaped, Option.bind_eq_bind, Option.bind_some]
  dsimp only
  rw [List.reverse_nil, List.nil_append, joinPairs?_map_toNat]
  simp

end Json

end Bitcoin
