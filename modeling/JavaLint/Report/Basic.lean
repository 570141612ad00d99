import JavaLint.Report.SourceLine
import JavaLint.Results.Builder
import JavaLint.Rule.Description

/-!
# Reports

A report shows a results tree up to a priority: a summary with one row per directory that has files, the
visible violations of each file in order of priority, and an index of the rules that found them.
-/

namespace JavaLint

namespace Report

/-- One row of the summary. The row for everything has no path. -/
structure SummaryRow where
  path : Option String
  totalFiles : Int
  filesWithViolations : Nat
  priorityCounts : List (Int × Nat)
  deriving Repr

/-- One violation. -/
structure ViolationRow where
  ruleName : String
  priority : Int
  line : Option Nat
  sourceLine : Option String
  message : Option String
  deriving DecidableEq, Repr

/-- The violations of one file. -/
structure FileSection where
  path : String
  displayName : String
  rows : List ViolationRow
  deriving DecidableEq, Repr

/-- The files of one directory. -/
structure DirectorySection where
  path : String
  files : List FileSection
  deriving DecidableEq, Repr

/-- The description of one rule. -/
structure RuleDescriptionRow where
  index : Nat
  ruleName : String
  priority : Int
  description : String
  deriving DecidableEq, Repr

/-- The label of a summary row. -/
def SummaryRow.label (row : SummaryRow) : String :=
  row.path.getD "All Packages"

/-- The priorities up to the given one. -/
def prioritiesUpTo (maxPriority : Int) : List Int :=
  Rule.priorities.filter (· ≤ maxPriority)

/-- The summary row of a directory. -/
def summaryRow (maxPriority : Int) (path : Option String) (d : Directory) : SummaryRow where
  path := path
  totalFiles := d.totalFiles
  filesWithViolations := d.filesWithin maxPriority
  priorityCounts := (prioritiesUpTo maxPriority).map fun p => (p, d.countWith p)

/-- The rows of the summary: one for everything, then one for each directory below the root that has
    files in it or below. -/
def summarize (maxPriority : Int) (root : Directory) : List SummaryRow :=
  summaryRow maxPriority none root ::
    ((root.directories.drop 1).filter (·.containsFiles)).map fun d => summaryRow maxPriority d.path d

/-- The priority of a violation as a number to sort by. -/
def sortKey (v : Violation) : Int :=
  v.rule.priority.number?.getD 0

/-- The violations of a file that a report shows, the most severe first, otherwise in the order of
    detection. -/
def visible (maxPriority : Int) (f : FileResults) : List Violation :=
  (f.violations.filter (·.isWithin maxPriority)).mergeSort fun a b => sortKey a ≤ sortKey b

/-- The path of a file without the directory it is shown under. -/
def displayName (directory : Option String) (file : String) : String :=
  match directory with
  | none => file
  | some path =>
    if path.isEmpty then file
    else
      let lead := path.toList ++ ['/']
      if lead.isPrefixOf file.toList then String.ofList (file.toList.drop lead.length) else file

/-- The row of a violation. -/
def violationRow [Coercion] (v : Violation) : Except Error ViolationRow :=
  match Coercion.toInt v.rule.priority with
  | .error fault => .error (.invalidRecord .violationRow [⟨"priority", fault⟩])
  | .ok priority => .ok ⟨v.rule.name, priority, v.line, formatSourceLine v.sourceLine 0, v.message⟩

/-- The section of a file, if the report shows any of its violations. All of its priorities are compared. -/
def fileSection [Coercion] (maxPriority : Int) (directory : Option String) (f : FileResults) :
    Except Error (Option FileSection) :=
  match f.violations.find? (!·.isComparable) with
  | some v => .error (.notComparable v.rule.priority)
  | none =>
    match visible maxPriority f with
    | [] => .ok none
    | shown => do
      return some ⟨f.path, displayName directory f.path, ← shown.mapM violationRow⟩

/-- The section of a directory, if the report shows any of its files. -/
def directorySection [Coercion] (maxPriority : Int) (d : Directory) :
    Except Error (Option DirectorySection) := do
  let files ← d.files.mapM (fileSection maxPriority d.path)
  match files.filterMap id with
  | [] => return none
  | shown => return some ⟨d.path.getD "", shown⟩

/-- The sections of all directories of a tree. -/
def sectionsOf [Coercion] (maxPriority : Int) (root : Directory) :
    Except Error (List DirectorySection) := do
  return (← root.directories.mapM (directorySection maxPriority)).filterMap id

/-- The violations of a tree in the order in which a report shows them. -/
def shownViolations (maxPriority : Int) (root : Directory) : List Violation :=
  root.directories.flatMap fun d => d.files.flatMap (visible maxPriority)

/-- The rules of some violations, the first one for each name, in the order of their first violation. -/
def firedRules : List Violation → List Rule
  | [] => []
  | v :: rest => v.rule :: (firedRules rest).filter (·.name != v.rule.name)

/-- The rules of some violations, sorted by name. -/
def indexedRules (shown : List Violation) : List Rule :=
  (firedRules shown).mergeSort fun a b => a.name ≤ b.name

/-- The description of a rule, as the row with the given index. -/
def ruleDescriptionRow [Coercion] (bundle : Option Bundle) (index : Nat) (rule : Rule) :
    Except Error RuleDescriptionRow :=
  let priority := Coercion.toInt rule.priority
  let description := Coercion.toText (Bundle.describe bundle rule.name rule.properties.description)
  match priority, description with
  | .ok priority, .ok description => .ok ⟨index, rule.name, priority, description⟩
  | _, _ =>
    .error (.invalidRecord .ruleDescriptionRow
      (Violation.fieldFaults "priority" priority ++ Violation.fieldFaults "description" description))

/-- The descriptions of the rules that found something, numbered from one. -/
def describeRules [Coercion] (bundle : Option Bundle) (rules : List Rule) :
    Except Error (List RuleDescriptionRow) :=
  (rules.zipIdx 1).mapM fun (rule, index) => ruleDescriptionRow bundle index rule

end Report

/-- A report. -/
structure Report where
  title : Option String
  maxPriority : Int
  summaryRows : List Report.SummaryRow
  directorySections : List Report.DirectorySection
  ruleDescriptions : List Report.RuleDescriptionRow
  deriving Repr

namespace Report

/-- The priorities that a report shows. -/
def priorities (report : Report) : List Int :=
  prioritiesUpTo report.maxPriority

/-- The report on a results tree up to a priority from one to four. Without a bundle, rules are described
    by the shipped one. -/
def build [Coercion] (results : Option Directory) (maxPriority : Int) (title : Option String)
    (bundle : Option Bundle) : Except Error Report :=
  match results with
  | none => .error (.missing .results)
  | some root =>
    if Rule.minPriority ≤ maxPriority ∧ maxPriority ≤ Rule.maxPriority then do
      -- The summary comes first, and counts the files that have something to show.
      root.checkWithin maxPriority
      let sections ← sectionsOf maxPriority root
      let rules := indexedRules (shownViolations maxPriority root)
      let descriptions ← describeRules bundle rules
      return ⟨title, maxPriority, summarize maxPriority root, sections, descriptions⟩
    else .error (.config (.maxPriorityOutOfRange maxPriority))

end Report

end JavaLint
