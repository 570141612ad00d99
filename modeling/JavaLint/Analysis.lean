import JavaLint.Suppression
import JavaLint.Violation

/-!
# Analysis of one file

Every enabled rule contributes to the analysis of a source unit on its own: the violations that are left
after suppression, the number of those suppressed, or its failure. The analysis is the concatenation of
the contributions in the order of the rules. A file that could not be parsed has one violation that says
so, and no rule runs.
-/

namespace JavaLint

/-- A rule that failed on one file. -/
structure RuleFailure where
  rule : String
  path : String
  fault : VisitFault
  deriving DecidableEq, Repr

/-- The message of a failed rule. -/
def RuleFailure.message (failure : RuleFailure) : String :=
  let cause := failure.fault.message.getD Setting.null.display
  s!"Rule {failure.rule} failed on {failure.path}: {cause}"

/-- What an analysis yields: the violations that are shown, how many were suppressed, and the failures of
    rules. -/
structure Yield where
  violations : List Violation
  suppressed : Nat
  failures : List RuleFailure
  deriving Repr

namespace Yield

/-- What no rule yields. -/
def empty : Yield := ⟨[], 0, []⟩

/-- What is yielded first, and what after it. -/
def append (a b : Yield) : Yield :=
  ⟨a.violations ++ b.violations, a.suppressed + b.suppressed, a.failures ++ b.failures⟩

end Yield

/-- What rules contribute to the analysis of a file. -/
structure Contribution extends Yield where
  log : List LogEntry
  deriving Repr

namespace Contribution

/-- The contributions of two lists of rules, one after the other. -/
def append (a b : Contribution) : Contribution :=
  ⟨a.toYield.append b.toYield, a.log ++ b.log⟩

/-- What the candidates of a rule contribute under the given scopes. -/
def ofCandidates (scopes : List SuppressionScope) (rule : Rule) (candidates : List Candidate)
    (log : List LogEntry) : Contribution :=
  let hidden := fun (c : Candidate) => SuppressionScope.suppresses scopes rule.name c.node?
  ⟨⟨(candidates.filter (!hidden ·)).map (·.violation), candidates.countP hidden, []⟩, log⟩

/-- What one rule contributes to the analysis of a unit under the given scopes. -/
def ofRule (scopes : List SuppressionScope) (u : SourceUnit) (rule : Rule) :
    Except ConfigError Contribution := do
  if ← rule.appliesTo u then
    match rule.apply u with
    | .ok candidates => return ofCandidates scopes rule candidates (rule.applyLog u)
    | .error fault =>
      let failure : RuleFailure := ⟨rule.name, u.path, fault⟩
      return ⟨⟨[], 0, [failure]⟩, rule.applyLog u ++ [⟨.error, .analysis, failure.message⟩]⟩
  else
    return ⟨.empty, [⟨.debug, .analysis, s!"Rule {rule.name} does not apply to {u.path}"⟩]⟩

/-- What a list of rules contributes. -/
def ofRules (scopes : List SuppressionScope) (u : SourceUnit) : List Rule → Except ConfigError Contribution
  | [] => .ok ⟨.empty, []⟩
  | rule :: rules => do
    let first ← ofRule scopes u rule
    let rest ← ofRules scopes u rules
    return first.append rest

end Contribution

/-- How the analysis of a file ended. -/
inductive AnalysisState where
  | rulesApplied
  | parseFailed
  deriving DecidableEq, Repr

/-- The analysis of one file. -/
structure FileAnalysis extends Yield where
  path : String
  state : AnalysisState
  log : List LogEntry
  deriving Repr

/-- Rules that passed validation and are enabled, in order, whether annotations in the source are respected,
    and how many files are analysed at a time. -/
structure Analyzer where
  rules : List Rule
  useSuppressions : Bool
  workers : Int
  deriving Repr

namespace Analyzer

/-- An analyzer for a list of rules. All of them are validated, in order, before the disabled ones are
    dropped. There is at least one worker. -/
def ofRules (rules : Option (List Rule)) (useSuppressions : Bool) (workers : Int) : Except Error Analyzer :=
  match rules with
  | none => .error (.missing .rules)
  | some rules =>
    match rules.forM Rule.validate with
    | .error e => .error (.config e)
    | .ok _ => .ok ⟨rules.filter (·.isEnabled), useSuppressions, max 1 workers⟩

/-- The scopes that the analyzer respects in a unit. -/
def scopes (analyzer : Analyzer) (u : SourceUnit) : List SuppressionScope :=
  if analyzer.useSuppressions then SuppressionScope.find u.source u.root else []

/-- The analysis of a unit. -/
def analyzeUnit (analyzer : Analyzer) (u : SourceUnit) : Except ConfigError FileAnalysis := do
  let scopes := analyzer.scopes u
  let found : List LogEntry :=
    if scopes.isEmpty then []
    else [⟨.debug, .suppression, s!"{u.path}: {scopes.length} @SuppressWarnings scope(s)"⟩]
  let c ← Contribution.ofRules scopes u analyzer.rules
  let done : LogEntry :=
    ⟨.info, .analysis, s!"{u.path}: {c.violations.length} violation(s), {c.suppressed} suppressed"⟩
  return ⟨c.toYield, u.path, .rulesApplied, found ++ c.log ++ [done]⟩

/-- The analysis of a file that could not be parsed. -/
def parseFailed (path : String) (failure : ParseFailure) (log : List LogEntry) : FileAnalysis :=
  ⟨⟨[.ofParseFailure failure], 0, []⟩, path, .parseFailed,
    log ++ [⟨.warning, .analysis, failure.message⟩]⟩

/-- The analysis of a source with the given concrete tree, under the given path. -/
def analyzeSource (analyzer : Analyzer) (path : String) (source : Bytes) (tree : Concrete) :
    Except ConfigError FileAnalysis :=
  let log := SourceUnit.parseLog path source tree
  match SourceUnit.parse path source tree with
  | .error failure => .ok (parseFailed path failure log)
  | .ok u => do
    let analysis ← analyzer.analyzeUnit u
    return { analysis with log := log ++ analysis.log }

end Analyzer

end JavaLint
