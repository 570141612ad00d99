/-!
# Lines of a text

A text is cut at every line boundary; a carriage return and the line feed after it are one boundary,
and a boundary at the very end opens no further line.
-/

namespace JavaLint.Text

/-- The characters that end a line. -/
def isLineBreak (c : Char) : Bool :=
  let n := c.toNat
  (0x0A ≤ n && n ≤ 0x0D) || (0x1C ≤ n && n ≤ 0x1E) || n == 0x85 || n == 0x2028 || n == 0x2029

/-- The lines of a list of characters. `line` is the line being read, in reverse. -/
def linesFrom (line : List Char) : List Char → List (List Char)
  | [] => if line.isEmpty then [] else [line.reverse]
  | '\r' :: '\n' :: s => line.reverse :: linesFrom [] s
  | c :: s => if isLineBreak c then line.reverse :: linesFrom [] s else linesFrom (c :: line) s

/-- The lines of a text, without the characters that end them. -/
def lines (s : String) : List String :=
  (linesFrom [] s.toList).map String.ofList

end JavaLint.Text
