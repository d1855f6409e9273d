/-!
# Blanks and words

`isBlank` is the property White_Space of Unicode. A text is cut at blanks into `words`,
and `trim` removes the blanks at both its ends.
-/

namespace Bitcoin.Text

/-- Whether a character has the Unicode property White_Space. -/
def isBlank (c : Char) : Bool :=
  let n := c.toNat
  (0x09 ≤ n && n ≤ 0x0d) || n == 0x20 || n == 0x85 || n == 0xa0 || n == 0x1680
    || (0x2000 ≤ n && n ≤ 0x200a) || n == 0x2028 || n == 0x2029 || n == 0x202f
    || n == 0x205f || n == 0x3000

/-- The words of a text after an unfinished word, whose characters are given backwards. -/
def wordsAfter (partialWord : List Char) : List Char → List (List Char)
  | [] => if partialWord.isEmpty then [] else [partialWord.reverse]
  | c :: rest =>
    if isBlank c then
      if partialWord.isEmpty then wordsAfter [] rest
      else partialWord.reverse :: wordsAfter [] rest
    else wordsAfter (c :: partialWord) rest

/-- The longest runs of characters that are not blank, in order. -/
def words (text : List Char) : List (List Char) :=
  wordsAfter [] text

/-- The text without the blanks at its ends. -/
def trim (text : List Char) : List Char :=
  ((text.dropWhile isBlank).reverse.dropWhile isBlank).reverse

/-- The pieces between the occurrences of `separator`; there is always at least one. -/
def splitAt (separator : Char) : List Char → List (List Char)
  | [] => [[]]
  | c :: rest =>
    if c = separator then [] :: splitAt separator rest
    else match splitAt separator rest with
      | [] => [[c]]
      | piece :: pieces => (c :: piece) :: pieces

/-- The UTF-8 encoding of a text. -/
def utf8 (text : List Char) : List UInt8 :=
  text.flatMap String.utf8EncodeChar

end Bitcoin.Text
