import JavaLint.Text.Blank

/-!
# Source lines and counts in reports

A source line is trimmed and fitted into seventy characters: a longer one is shown as a window of its
beginning, two dots, and its last twelve characters.
-/

namespace JavaLint.Report

/-- The most characters of a source line. -/
def sourceLineLength : Nat := 70

/-- How many characters of the end of a long line are kept. -/
def sourceLineTail : Nat := 12

/-- What stands for the part of a long line that is left out. -/
def truncationMark : String := ".."

/-- How many characters the window of a long line has. -/
def sourceLineWindow : Nat :=
  sourceLineLength - sourceLineTail - truncationMark.length

/-- Where the window starts: at the given column, but not before the line and not so late that it would
    reach into the tail. -/
def windowStart (length : Nat) (startColumn : Int) : Nat :=
  (max 0 (min startColumn ((length : Int) - sourceLineTail - sourceLineWindow))).toNat

/-- A trimmed line fitted into the length of a source line. -/
def fitChars (startColumn : Int) (line : List Char) : List Char :=
  if line.length ≤ sourceLineLength then line
  else
    (line.drop (windowStart line.length startColumn)).take sourceLineWindow ++ truncationMark.toList ++
      line.drop (line.length - sourceLineTail)

/-- A source line as it is shown; nothing for a line without visible characters. -/
def formatSourceLine (sourceLine : Option String) (startColumn : Int) : Option String :=
  sourceLine.bind fun line =>
    let trimmed := Text.trimChars line.toList
    if trimmed.isEmpty then none else some (String.ofList (fitChars startColumn trimmed))

/-- A count as it is shown: a dash for zero. -/
def formatCount (count : Int) : String :=
  if count == 0 then "-" else toString count

end JavaLint.Report
