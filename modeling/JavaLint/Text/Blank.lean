/-!
# Blank characters

Which characters count as white space, and the three ways the linter treats them: trimming the ends of
a text, splitting it into words, and removing every blank.
-/

namespace JavaLint.Text

/-- White space: the tab and line controls, the four information separators, the space, and the
    spaces and separators of Unicode. Zero-width characters are not blank. -/
def isBlank (c : Char) : Bool :=
  let n := c.toNat
  (0x09 ≤ n && n ≤ 0x0D) || (0x1C ≤ n && n ≤ 0x20) || n == 0x85 || n == 0xA0 || n == 0x1680 ||
    (0x2000 ≤ n && n ≤ 0x200A) || n == 0x2028 || n == 0x2029 || n == 0x202F || n == 0x205F ||
    n == 0x3000

/-- Drops the characters that satisfy `p` from both ends. -/
def trimCharsWhile (p : Char → Bool) (s : List Char) : List Char :=
  ((s.dropWhile p).reverse.dropWhile p).reverse

/-- The characters of a text without the blanks at its ends. -/
def trimChars (s : List Char) : List Char :=
  trimCharsWhile isBlank s

/-- The text without the blanks at its ends. -/
def trim (s : String) : String :=
  String.ofList (trimChars s.toList)

/-- The text without the quotation marks at its ends. -/
def trimQuotes (s : String) : String :=
  String.ofList (trimCharsWhile (· == '"') s.toList)

/-- The maximal runs of characters that are not blank. `word` is the run being read, in reverse. -/
def wordsFrom (word : List Char) : List Char → List (List Char)
  | [] => if word.isEmpty then [] else [word.reverse]
  | c :: s =>
    if isBlank c then
      if word.isEmpty then wordsFrom [] s else word.reverse :: wordsFrom [] s
    else wordsFrom (c :: word) s

/-- The words of a text: its maximal runs of characters that are not blank. -/
def words (s : String) : List String :=
  (wordsFrom [] s.toList).map String.ofList

/-- The text with every blank removed. -/
def compact (s : String) : String :=
  String.ofList (s.toList.filter (! isBlank ·))

end JavaLint.Text
