import JavaLint.Rule.Catalog

/-!
# Violations

A violation is a rule match at one place of one file. Two violations with the same content are still two.
-/

namespace JavaLint

/-- A rule match. `line` counts from one and is absent for a match in the file as a whole. -/
structure Violation where
  rule : Rule
  line : Option Nat
  sourceLine : Option String
  message : Option String
  deriving Repr

namespace Violation

/-- The violation has exactly this priority. -/
def hasPriority (v : Violation) (priority : Int) : Bool :=
  v.rule.priority.number? == some priority

/-- The priority of the violation can be compared with others. -/
def isComparable (v : Violation) : Bool :=
  v.rule.priority.isNumber

/-- The violation is at least as severe as this priority. -/
def isWithin (v : Violation) (maxPriority : Int) : Bool :=
  v.rule.priority.atMost maxPriority

/-- The fault of a coercion, as a fault of the named field. -/
def fieldFaults (field : String) (result : Except FieldFault α) : List InvalidField :=
  match result with
  | .error fault => [⟨field, fault⟩]
  | .ok _ => []

/-- A violation from settings: the line is an integer of at least one, source line and message are texts,
    and each may be absent. -/
def ofSettings [Coercion] (rule : Rule) (line sourceLine message : Setting) : Except Error Violation :=
  let line := Setting.optional (Setting.toIntWithin 1 none) line
  let sourceLine := Setting.optional Coercion.toText sourceLine
  let message := Setting.optional Coercion.toText message
  match line, sourceLine, message with
  | .ok line, .ok sourceLine, .ok message => .ok ⟨rule, line.map Int.toNat, sourceLine, message⟩
  | _, _, _ =>
    .error (.invalidRecord .violation
      (fieldFaults "line_number" line ++ fieldFaults "source_line" sourceLine ++
        fieldFaults "message" message))

/-- The violation that stands for a source which could not be parsed. -/
def ofParseFailure (failure : ParseFailure) : Violation :=
  ⟨.parseFailure, failure.cause.line?, none, some failure.cause.reason⟩

end Violation

/-- A violation together with the node it was found at. -/
structure Candidate where
  violation : Violation
  node? : Option Node
  deriving Repr

namespace Rule

/-- The candidate for something that the rule found in a unit, with the source line it stands in. -/
def candidate (rule : Rule) (u : SourceUnit) (finding : Finding) : Candidate :=
  let line := finding.node?.map (·.line)
  ⟨⟨rule, line, line.bind fun n => u.sourceLine? n, finding.message⟩, finding.node?⟩

/-- The candidates of the rule in a unit, or the failure that ended its visit. -/
def apply (rule : Rule) (u : SourceUnit) : Except VisitFault (List Candidate) :=
  let scan := rule.scan u
  match scan.fault with
  | some fault => .error fault
  | none => .ok (scan.findings.map (rule.candidate u))

/-- What a visit of the rule logs: one entry for everything it found, also before a failure. -/
def applyLog (rule : Rule) (u : SourceUnit) : List LogEntry :=
  (rule.scan u).findings.map fun finding =>
    let line := match finding.node? with
      | some node => toString node.line
      | none => Setting.null.display
    ⟨.debug, .visiting, s!"{u.path}: {rule.name} candidate at line {line}"⟩

end Rule

end JavaLint
