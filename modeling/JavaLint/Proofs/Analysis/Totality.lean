import JavaLint.Proofs.Analysis.Independence
import JavaLint.Proofs.Rule.FinallyExits
import JavaLint.Proofs.Rule.BooleanExits
import JavaLint.Proofs.Syntax.Faults
import JavaLint.Proofs.Text.Encoding
import JavaLint.Setting.Lenient

/-!
# Every source has an analysis

Once the rules of an analyzer have been validated, nothing can go wrong: whatever the bytes and the tree
are, the analysis exists. A source that cannot be parsed is a violation, and a rule that fails is an entry
among the failures.

- `Rule.IsShipped.fault_scan_eq_none`: the shipped rules never fail
- `failures_concat_yield`: the failures of an analysis, rule by rule
- `Rule.exists_finding_of_mem_yield`: what a rule shows is something it found
- `Violation.isAccepted_iff`, `Rule.isAccepted_candidate`: whatever a rule finds is a valid record
- `analyzeSource_total`: every source has an analysis
-/

namespace JavaLint

/-! ## Failures of rules -/

/-- A visit fails only where the rule does. -/
private theorem Node.fault_visit_eq_none {respond : Node → Response}
    (h : ∀ n, (respond n).scan.fault = none) (n : Node) : (n.visit respond).fault = none := by
  rw [Node.visit_eq_concat (fun _ => rfl), Scan.fault_concat, List.findSome?_eq_none_iff]
  intro scan hscan
  obtain ⟨x, -, rfl⟩ := List.mem_map.1 hscan
  exact h x.2

/-- Looking for imports never fails. -/
private theorem DuplicateImport.fault_respond_eq_none (source : Bytes) (n : Node) :
    (respond source n).scan.fault = none := by
  rw [respond]
  split <;> rfl

/-- Looking for instances never fails. -/
private theorem BooleanInstantiation.fault_respond_eq_none (source : Bytes) (n : Node) :
    (respond source n).scan.fault = none := by
  rw [respond]
  split
  · split <;> rfl
  · split
    · split
      · split <;> rfl
      · rfl
    · rfl

/-- Only handlers can be told to fail. -/
private theorem Detector.fault_respond_eq_none {detector : Detector} (h : ∀ table, detector ≠ .handlers table)
    (source : Bytes) (n : Node) : (detector.respond source n).scan.fault = none := by
  -- one case for each way to look for something
  cases detector with
  | nothing => rfl
  | booleanReturnsNull => exact (BooleanReturnsNull.respond_descends source n).2
  | duplicateImport => exact DuplicateImport.fault_respond_eq_none source n
  | finallyExit exit => exact (exit.respond_descends n).2
  | booleanInstantiation => exact BooleanInstantiation.fault_respond_eq_none source n
  | handlers table => exact absurd rfl (h table)

namespace Rule

/-- The rule is a shipped one, with any properties. -/
def IsShipped (rule : Rule) : Prop :=
  ∃ base ∈ parseFailure :: Catalog.shipped.rules, ∃ properties, rule = { base with properties }

/-- The visit of a shipped rule never fails. -/
theorem IsShipped.fault_scan_eq_none {rule : Rule} (h : rule.IsShipped) (u : SourceUnit) :
    (rule.scan u).fault = none := by
  obtain ⟨base, hbase, properties, rfl⟩ := h
  -- no shipped rule is made of handlers
  have htable : ∀ base ∈ parseFailure :: Catalog.shipped.rules, ∀ table,
      base.detector ≠ .handlers table := by
    simp [Catalog.shipped, parseFailure, booleanMethodReturnsNull, duplicateImport, returnFromFinallyBlock,
      throwFromFinallyBlock, unnecessaryBooleanInstantiation]
  rw [scan]
  exact Node.fault_visit_eq_none (Detector.fault_respond_eq_none (htable base hbase) u.source) u.root

/-- The failure of a rule in a unit: it is enabled, it applies, and its visit ends early. -/
def failureIn? (u : SourceUnit) (rule : Rule) : Option RuleFailure :=
  match rule.isEnabled, rule.appliesTo u, (rule.scan u).fault with
  | true, .ok true, some fault => some ⟨rule.name, u.path, fault⟩
  | _, _, _ => none

/-- So there is no failure of a shipped rule. -/
private theorem IsShipped.failureIn?_eq_none {rule : Rule} (h : rule.IsShipped) (u : SourceUnit) :
    rule.failureIn? u = none := by
  rw [failureIn?, h.fault_scan_eq_none u]
  split
  · next hfault => cases hfault
  · rfl

/-- A rule yields its failure, if it has one. -/
theorem failures_yield (scopes : List SuppressionScope) (u : SourceUnit) (rule : Rule) :
    (rule.yield scopes u).failures = (rule.failureIn? u).toList := by
  rw [yield, failureIn?, apply]
  -- a rule that is disabled or does not apply yields nothing
  cases rule.isEnabled with
  | false => rfl
  | true =>
    cases rule.appliesTo u with
    | error e => rfl
    | ok applies =>
      cases applies with
      | false => rfl
      | true => cases (rule.scan u).fault <;> rfl

end Rule

/-- The failures of an analysis, in the order of the rules. -/
theorem failures_concat_yield (scopes : List SuppressionScope) (u : SourceUnit) (rules : List Rule) :
    (Yield.concat (rules.map (Rule.yield scopes u))).failures = rules.filterMap (Rule.failureIn? u) := by
  induction rules with
  | nil => rfl
  | cons rule rest ih =>
    rw [List.map_cons, Yield.concat_cons, Yield.append, Rule.failures_yield, ih, List.filterMap_cons]
    cases rule.failureIn? u <;> rfl

/-! ## Violations are valid records -/

namespace Violation

/-- The violation passes the checks that its fields are held to. -/
def IsAccepted [Coercion] (v : Violation) : Prop :=
  ofSettings v.rule (v.line.elim .null fun line => .int line) (v.sourceLine.elim .null .text)
    (v.message.elim .null .text) = .ok v

/-- Whatever the coercion, the only check that a violation can fail is that lines are counted from one. -/
theorem isAccepted_iff [Coercion] {v : Violation} : v.IsAccepted ↔ ∀ line, v.line = some line → 1 ≤ line := by
  obtain ⟨rule, line, sourceLine, message⟩ := v
  -- a text is kept by every coercion, and so is none
  have htext : ∀ text : Option String,
      Setting.optional Coercion.toText (text.elim .null .text) = .ok text := by
    intro text
    cases text with
    | none => rfl
    | some text => simp [Setting.optional, Coercion.toText_text, Except.map]
  simp only [IsAccepted, ofSettings, htext]
  cases line with
  | none => simp [Setting.optional]
  | some line =>
    -- a number is kept as well, if it is not too small
    have hread : Setting.optional (Setting.toIntWithin 1 none) (.int line) =
        if (line : Int) < 1 then .error (.below 1) else .ok (some (line : Int)) := by
      simp only [Setting.optional, Setting.toIntWithin, Coercion.toInt_int, bind, Except.bind]
      split <;> rfl
    simp only [Option.elim_some, hread, Option.some.injEq, forall_eq']
    by_cases hline : 1 ≤ line
    · rw [if_neg (by omega)]
      exact ⟨fun _ => hline, fun _ => rfl⟩
    · rw [if_pos (by omega)]
      constructor
      · intro h
        cases h
      · intro hpos
        exact absurd hpos hline

end Violation

/-- Whatever a rule finds stands in some line, if it stands in one at all. -/
theorem Rule.isAccepted_candidate [Coercion] (rule : Rule) (u : SourceUnit) (finding : Finding) :
    (rule.candidate u finding).violation.IsAccepted := by
  rw [Violation.isAccepted_iff]
  intro line hline
  obtain ⟨node, _, rfl⟩ := Option.map_eq_some_iff.1 hline
  rw [Node.line]
  omega

/-- A candidate of a rule stands for something that the rule found. -/
theorem Rule.exists_finding_of_mem_apply {rule : Rule} {u : SourceUnit} {candidates : List Candidate}
    (h : rule.apply u = .ok candidates) {c : Candidate} (hc : c ∈ candidates) :
    ∃ finding, c = rule.candidate u finding := by
  rw [apply] at h
  cases hfault : (rule.scan u).fault with
  | some fault => simp [hfault] at h
  | none =>
    simp only [hfault, Except.ok.injEq] at h
    rw [← h] at hc
    obtain ⟨finding, _, rfl⟩ := List.mem_map.1 hc
    exact ⟨finding, rfl⟩

/-- What a rule shows stands for something that it found. -/
theorem Rule.exists_finding_of_mem_yield {rule : Rule} {scopes : List SuppressionScope} {u : SourceUnit}
    {v : Violation} (hv : v ∈ (rule.yield scopes u).violations) :
    ∃ finding, v = (rule.candidate u finding).violation := by
  rw [yield] at hv
  split at hv
  · cases hrun : rule.apply u with
    | error fault =>
      rw [hrun] at hv
      cases hv
    | ok candidates =>
      rw [hrun] at hv
      -- what is shown is what the scopes leave of the candidates
      obtain ⟨c, hc, rfl⟩ := List.mem_map.1 hv
      obtain ⟨finding, rfl⟩ := exists_finding_of_mem_apply hrun (List.mem_filter.1 hc).1
      exact ⟨finding, rfl⟩
  · cases hv

/-- What the rules show are valid records. -/
private theorem isAccepted_of_mem_concat_yield [Coercion] {rules : List Rule} {scopes : List SuppressionScope}
    {u : SourceUnit} {v : Violation}
    (hv : v ∈ (Yield.concat (rules.map (Rule.yield scopes u))).violations) : v.IsAccepted := by
  induction rules with
  | nil => cases hv
  | cons rule rest ih =>
    rw [List.map_cons, Yield.concat_cons] at hv
    rcases List.mem_append.1 hv with hfirst | hrest
    · obtain ⟨finding, rfl⟩ := Rule.exists_finding_of_mem_yield hfirst
      exact rule.isAccepted_candidate u finding
    · exact ih hrest

/-! ## Sources that can be parsed -/

/-- The line of a fault counts from one. -/
theorem Concrete.one_le_of_firstErrorLine_eq_some (tree : Concrete) :
    ∀ line, tree.firstErrorLine = some line → 1 ≤ line := by
  induction tree using Concrete.induction with
  | step tree ih =>
    intro line hline
    rw [firstErrorLine_eq, firstErrorLineIn_eq_findSome?] at hline
    split at hline
    · cases hline
      omega
    · split at hline
      · -- the fault of a child comes first, and then the node itself
        rcases Option.or_eq_some_iff.1 hline with hfirst | ⟨-, hown⟩
        · obtain ⟨child, hchild, hfound⟩ := List.exists_of_findSome?_eq_some hfirst
          exact ih child hchild line hfound
        · cases hown
          omega
      · cases hline

namespace SourceUnit

/-- The source is a text, and its tree is not marked as faulty. -/
def IsParsable (source : Bytes) (tree : Concrete) : Prop :=
  (∃ text, source = Utf8.encode text) ∧ tree.hasError = false

/-- A source that can be parsed becomes a unit. -/
theorem parse_of_isParsable {source : Bytes} {tree : Concrete} (h : IsParsable source tree) (path : String) :
    parse path source tree = .ok ⟨path, source, Node.ofConcrete tree⟩ := by
  obtain ⟨⟨text, htext⟩, herror⟩ := h
  rw [parse, Utf8.decode?_eq_ok_iff.2 htext, herror]
  rfl

/-- Any other source fails to be parsed, in a line that counts from one. -/
private theorem parse_of_not_isParsable {source : Bytes} {tree : Concrete} (h : ¬ IsParsable source tree)
    (path : String) :
    ∃ failure, parse path source tree = .error failure ∧
      ∀ line, failure.cause.line? = some line → 1 ≤ line := by
  rw [parse]
  cases hdecode : Utf8.decode? source with
  | error fault =>
    refine ⟨_, rfl, ?_⟩
    intro line hline
    cases hline
  | ok text =>
    -- the bytes are a text, so it is the tree that is faulty
    have herror : tree.hasError = true := by
      by_contra hclean
      exact h ⟨⟨text, Utf8.decode?_eq_ok_iff.1 hdecode⟩, Bool.eq_false_iff.2 hclean⟩
    rw [herror]
    exact ⟨_, rfl, tree.one_le_of_firstErrorLine_eq_some⟩

end SourceUnit

/-! ## The analysis of any source -/

namespace FileAnalysis

/-- The file is reported as one that could not be parsed, and no rule ran. -/
structure ReportsParseFailure (a : FileAnalysis) : Prop where
  state : a.state = .parseFailed
  violation : ∃ v, a.violations = [v] ∧ v.rule.name = "ParseFailure" ∧ v.rule.priority = .int 1
  suppressed : a.suppressed = 0
  failures : a.failures = []

/-- The rules ran. There is one failure for each enabled rule that applies and fails, in order. -/
structure ReportsRules (a : FileAnalysis) (rules : List Rule) (u : SourceUnit) : Prop where
  state : a.state = .rulesApplied
  failures : a.failures = rules.filterMap (Rule.failureIn? u)

end FileAnalysis

/-- An analyzer is made of rules that are all valid. -/
theorem Analyzer.validate_of_ofRules {rules : List Rule} {useSuppressions : Bool} {workers : Int}
    {analyzer : Analyzer} (h : ofRules (some rules) useSuppressions workers = .ok analyzer) :
    ∀ rule ∈ rules, rule.validate = .ok () := by
  rw [ofRules] at h
  cases hvalid : rules.forM Rule.validate with
  | error e => simp [hvalid] at h
  | ok _ => exact forM_eq_ok_iff.1 hvalid

/-- Every unit has an analysis, and it yields what the rules yield one after another. -/
theorem Analyzer.exists_analyzeUnit_of_ofRules {rules : List Rule} {useSuppressions : Bool} {workers : Int}
    {analyzer : Analyzer} (h : ofRules (some rules) useSuppressions workers = .ok analyzer) (u : SourceUnit) :
    ∃ a, analyzer.analyzeUnit u = .ok a ∧ a.toYield = Yield.concat
      (rules.map (Rule.yield (SuppressionScope.respected u useSuppressions) u)) := by
  obtain ⟨a, hanalyzes, hyield⟩ := exists_analyzes (validate_of_ofRules h) u useSuppressions
  obtain ⟨analyzer', hanalyzer', hrun⟩ := hanalyzes workers
  obtain rfl : analyzer = analyzer' := Except.ok.inj (h.symm.trans hanalyzer')
  exact ⟨a, hrun, hyield⟩

/-- The analysis of a unit has got through its rules. -/
theorem Analyzer.state_of_analyzeUnit {analyzer : Analyzer} {u : SourceUnit} {a : FileAnalysis}
    (h : analyzer.analyzeUnit u = .ok a) : a.state = .rulesApplied := by
  rw [analyzeUnit] at h
  cases hrules : Contribution.ofRules (analyzer.scopes u) u analyzer.rules with
  | error e => simp [hrules, bind, Except.bind] at h
  | ok c =>
    simp only [hrules, bind, Except.bind, pure, Except.pure, Except.ok.injEq] at h
    rw [← h]

/-- Every source has an analysis under rules that passed validation. It reports a parse failure exactly if
    the source is no text or its tree is faulty; otherwise the rules ran, and the failures are those of the
    rules that failed. Shipped rules do not fail, and every violation is a valid record. -/
theorem analyzeSource_total [Coercion] (rules : List Rule) (useSuppressions : Bool) (workers : Int)
    (analyzer : Analyzer) (hanalyzer : Analyzer.ofRules (some rules) useSuppressions workers = .ok analyzer)
    (path : String) (source : Bytes) (tree : Concrete) :
    ∃ a, analyzer.analyzeSource path source tree = .ok a ∧
      (a.ReportsParseFailure ↔ (¬ ∃ text, source = Utf8.encode text) ∨ tree.hasError = true) ∧
      ((∃ text, source = Utf8.encode text) → tree.hasError = false →
        a.ReportsRules rules ⟨path, source, Node.ofConcrete tree⟩) ∧
      ((∀ rule ∈ rules, rule.IsShipped) → a.failures = []) ∧
      ∀ v ∈ a.violations, v.IsAccepted := by
  by_cases hparsable : SourceUnit.IsParsable source tree
  · -- the unit exists, and validated rules give its analysis
    have hparse := SourceUnit.parse_of_isParsable hparsable path
    obtain ⟨a, hrun, hyield⟩ :=
      Analyzer.exists_analyzeUnit_of_ofRules hanalyzer ⟨path, source, Node.ofConcrete tree⟩
    have hstate := Analyzer.state_of_analyzeUnit hrun
    have hfailures : a.failures = rules.filterMap
        (Rule.failureIn? ⟨path, source, Node.ofConcrete tree⟩) := by
      rw [hyield, failures_concat_yield]
    refine ⟨{ a with log := SourceUnit.parseLog path source tree ++ a.log }, ?_, ?_, ?_, ?_, ?_⟩
    · rw [Analyzer.analyzeSource, hparse]
      simp only [hrun, bind, Except.bind, pure, Except.pure]
    · constructor
      · intro hreport
        -- the rules ran, so this is no parse failure
        have := hreport.state
        rw [hstate] at this
        cases this
      · intro hfaulty
        rcases hfaulty with hbytes | herror
        · exact absurd hparsable.1 hbytes
        · rw [hparsable.2] at herror
          cases herror
    · intro _ _
      exact ⟨hstate, hfailures⟩
    · intro hshipped
      show a.failures = []
      rw [hfailures, List.filterMap_eq_nil_iff]
      exact fun rule hrule => (hshipped rule hrule).failureIn?_eq_none _
    · intro v hv
      have hmem : v ∈ a.toYield.violations := hv
      rw [hyield] at hmem
      exact isAccepted_of_mem_concat_yield hmem
  · -- the one violation is the failure itself, at its line
    obtain ⟨failure, hparse, hline⟩ := SourceUnit.parse_of_not_isParsable hparsable path
    refine ⟨Analyzer.parseFailed path failure (SourceUnit.parseLog path source tree), ?_, ?_, ?_, ?_, ?_⟩
    · rw [Analyzer.analyzeSource, hparse]
    · constructor
      · intro _
        by_contra hfaulty
        obtain ⟨htext, herror⟩ := not_or.1 hfaulty
        exact hparsable ⟨not_not.1 htext, Bool.eq_false_iff.2 herror⟩
      · intro _
        exact ⟨rfl, ⟨_, rfl, rfl, rfl⟩, rfl, rfl⟩
    · intro htext herror
      exact absurd ⟨htext, herror⟩ hparsable
    · intro _
      rfl
    · intro v hv
      obtain rfl := List.mem_singleton.1 hv
      exact Violation.isAccepted_iff.2 hline

/-- A program with one block in it. -/
def blockTree : Concrete :=
  let span : Span := ⟨0, 0, 0, 0, 0, 0⟩
  ⟨"program", none, true, false, false, span, [⟨"block", none, true, false, false, span, []⟩]⟩

/-- A rule that fails is reported, and so is a source that is no text. -/
theorem analyzeSource_total_failingRule :
    ∃ analyzer, Analyzer.ofRules (some (failingRule :: .duplicateImport :: idleRules)) true 4 = .ok analyzer ∧
      (∃ a, analyzer.analyzeSource "a/A.java" [] blockTree = .ok a ∧ a.state = .rulesApplied ∧
        a.failures = [⟨"Failing", "a/A.java", ⟨some "broken"⟩⟩]) ∧
      ∃ a, analyzer.analyzeSource "a/A.java" [0xFF] blockTree = .ok a ∧ a.ReportsParseFailure := by
  refine ⟨_, rfl, ?_, ?_⟩
  · obtain ⟨a, hrun, _, hrules, _⟩ := analyzeSource_total (failingRule :: .duplicateImport :: idleRules)
      true 4 _ rfl "a/A.java" [] blockTree
    have hreport := hrules ⟨[], rfl⟩ rfl
    exact ⟨a, hrun, hreport.state, hreport.failures⟩
  · obtain ⟨a, hrun, hparse, _⟩ := analyzeSource_total (failingRule :: .duplicateImport :: idleRules)
      true 4 _ rfl "a/A.java" [0xFF] blockTree
    refine ⟨a, hrun, hparse.2 (.inl ?_)⟩
    -- the byte starts no character
    rintro ⟨text, htext⟩
    obtain ⟨c, taken, rest, hread, _⟩ :=
      Utf8.decode?_cons_eq_ok_iff.1 (Utf8.decode?_eq_ok_iff.2 htext)
    cases hread

end JavaLint
