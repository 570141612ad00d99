import JavaLint.Report.Basic

/-!
# Reports on a console

A report is printed as a sequence of blocks: panels, tables and blank lines. What is fixed here is their
content and style; how they are laid out on a screen is left to the console.
-/

namespace JavaLint

/-- The frame of a panel or a table. -/
inductive Frame where
  | rounded
  | simpleHead
  | simple
  deriving DecidableEq, Repr

/-- The alignment of a column or a title. -/
inductive Alignment where
  | left
  | center
  | right
  deriving DecidableEq, Repr

/-- A part of a styled text, from one character to before another. -/
structure StyledPart where
  start : Nat
  stop : Nat
  style : String
  deriving DecidableEq, Repr

/-- A text with a style as a whole and styles for some of its parts. -/
structure StyledText where
  text : String
  style : String
  parts : List StyledPart
  deriving DecidableEq, Repr

namespace StyledText

/-- Controls that would move the cursor or ring a bell: they are left out of styled text. -/
def isConsoleControl (c : Char) : Bool :=
  [0x07, 0x08, 0x0B, 0x0C, 0x0D].contains c.toNat

/-- The text without console controls. -/
def clean (s : String) : String :=
  String.ofList (s.toList.filter (!isConsoleControl ·))

/-- A text in one style. -/
def ofString (s style : String) : StyledText :=
  ⟨clean s, style, []⟩

/-- Appends a text in a style of its own. An empty text, or an empty style, makes no part. -/
def append (t : StyledText) (s style : String) : StyledText :=
  let start := t.text.length
  let added := clean s
  let part := if s.isEmpty || style.isEmpty then [] else [⟨start, start + added.length, style⟩]
  ⟨t.text ++ added, t.style, t.parts ++ part⟩

end StyledText

/-- A cell of a table. -/
inductive Cell where
  | plain (text : String)
  | styled (text : StyledText)
  deriving DecidableEq, Repr

/-- A column of a table. -/
structure Column where
  header : String
  alignment : Alignment := .left
  style : String := ""
  width : Option Nat := none
  deriving DecidableEq, Repr

/-- A table. -/
structure Table where
  title : String
  frame : Frame
  titleAlignment : Alignment := .center
  headerStyle : String
  columns : List Column
  rows : List (List Cell)
  deriving DecidableEq, Repr

/-- A framed text in one style. -/
structure Panel where
  text : String
  style : String
  frame : Frame
  borderStyle : String
  deriving DecidableEq, Repr

/-- The text of a panel with its style in square brackets around it. -/
def Panel.markup (panel : Panel) : String :=
  s!"[{panel.style}]{panel.text}[/{panel.style}]"

/-- A block of a document. -/
inductive Block where
  | blank
  | panel (panel : Panel)
  | table (table : Table)
  deriving DecidableEq, Repr

/-- What is printed, block by block. -/
abbrev Document := List Block

namespace Report

/-- The style of a priority. -/
def priorityStyle (priority : Int) : String :=
  match priority with
  | 1 => "bold red"
  | 2 => "bold yellow"
  | 3 => "bold blue"
  | 4 => "dim"
  | _ => "bold white"

/-- The heading of a report. A title that is empty is no title. -/
def heading (report : Report) : String :=
  match report.title with
  | some title => if title.isEmpty then "Sift Report" else s!"Sift Report: {title}"
  | none => "Sift Report"

/-- The count of a priority in a summary row. -/
def SummaryRow.count (row : SummaryRow) (priority : Int) : Nat :=
  (row.priorityCounts.lookup priority).getD 0

/-- The cells of a summary row. -/
def summaryCells (priorities : List Int) (row : SummaryRow) : List Cell :=
  [.styled (.ofString row.label (if row.path.isNone then "bold" else "")),
    .plain (toString row.totalFiles),
    .plain (formatCount row.filesWithViolations)] ++
      priorities.map fun p => .plain (formatCount (row.count p))

/-- The summary as a table. -/
def summaryTable (report : Report) : Table where
  title := "Summary by Package"
  frame := .rounded
  headerStyle := "bold cyan"
  columns :=
    [{ header := "Package", style := "white" },
      { header := "Total Files", alignment := .right },
      { header := "Files with Violations", alignment := .right }] ++
        report.priorities.map fun p =>
          { header := s!"Priority {p}", alignment := .right, style := priorityStyle p }
  rows := report.summaryRows.map (summaryCells report.priorities)

/-- The source line and the message of a violation, each behind its mark, as far as they are there. -/
def violationText (row : ViolationRow) : StyledText :=
  let start : StyledText := ⟨"", "", []⟩
  let withSource := match row.sourceLine with
    | some line => if line.isEmpty then start else (start.append "[SRC] " "dim").append line ""
    | none => start
  match row.message with
  | some message =>
    if message.isEmpty then withSource
    else
      let broken := if withSource.text.isEmpty then withSource else withSource.append "\n" ""
      (broken.append "[MSG] " "dim").append message "italic"
  | none => withSource

/-- The cells of a violation. -/
def violationCells (row : ViolationRow) : List Cell :=
  [.plain row.ruleName,
    .styled (.ofString (toString row.priority) (priorityStyle row.priority)),
    .plain ((row.line.map toString).getD ""),
    .styled (violationText row)]

/-- The violations of a file as a table. -/
def fileTable (file : FileSection) : Table where
  title := file.displayName
  frame := .simple
  titleAlignment := .left
  headerStyle := "bold magenta"
  columns :=
    [{ header := "Rule Name", width := some 32 },
      { header := "Priority", alignment := .right, width := some 8 },
      { header := "Line #", alignment := .right, style := "dim", width := some 6 },
      { header := "Source Line / Message", style := "white" }]
  rows := file.rows.map violationCells

/-- The name of a directory as a package: dots between the names. -/
def packageLabel (path : String) : String :=
  if path.isEmpty then "<root>"
  else String.ofList (path.toList.map fun c => if c == '/' then '.' else c)

/-- The blocks of a directory. -/
def directoryBlocks (directory : DirectorySection) : Document :=
  [.blank,
    .panel ⟨s!"Package: {packageLabel directory.path}", "bold cyan", .simpleHead, "blue"⟩] ++
      directory.files.map fun file => .table (fileTable file)

/-- The cells of a rule description. -/
def descriptionCells (row : RuleDescriptionRow) : List Cell :=
  [.plain (toString row.index),
    .styled (.ofString row.ruleName (priorityStyle row.priority)),
    .plain row.description]

/-- The descriptions of the rules as a table. -/
def descriptionTable (report : Report) : Table where
  title := "Rule Descriptions"
  frame := .rounded
  headerStyle := "bold cyan"
  columns :=
    [{ header := "#", alignment := .right, width := some 3 },
      { header := "Rule Name" },
      { header := "Description" }]
  rows := report.ruleDescriptions.map descriptionCells

/-- The blocks of the rule descriptions, none if there are none. -/
def descriptionBlocks (report : Report) : Document :=
  if report.ruleDescriptions.isEmpty then [] else [.blank, .table report.descriptionTable]

/-- The report as a document. -/
def document (report : Report) : Document :=
  [.panel ⟨report.heading, "bold", .rounded, "cyan"⟩, .blank, .table report.summaryTable] ++
    if report.directorySections.isEmpty then
      [.panel ⟨"No violations found.", "green", .rounded, "green"⟩]
    else report.directorySections.flatMap directoryBlocks ++ report.descriptionBlocks

end Report

end JavaLint
