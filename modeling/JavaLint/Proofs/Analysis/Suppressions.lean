import JavaLint.Proofs.Analysis.Totality
import JavaLint.Proofs.Suppression.Ancestry

/-!
# Suppression only removes

A unit is analyzed twice with the same rules, once with its annotations respected and once without. The second
analysis shows every candidate. The first leaves out those that an annotation suppresses, in place, and counts
them; nothing else differs.

- `Rule.candidatesIn`, `Candidate.IsSuppressed`: what is found in a unit, and what of it is suppressed
- `concat_yield_eq`: what an analysis shows, given the scopes it respects
- `analyzes_suppressions`: the two analyses side by side
-/

namespace JavaLint

/-! ## Candidates -/

/-- What the rule finds in a unit: nothing unless it is enabled, applies and gets through. -/
def Rule.candidatesIn (u : SourceUnit) (rule : Rule) : List Candidate :=
  match rule.isEnabled, rule.appliesTo u, rule.apply u with
  | true, .ok true, .ok candidates => candidates
  | _, _, _ => []

/-- The candidate has a node, and this node lies within a scope of the unit that names its rule or everything. -/
def Candidate.IsSuppressed (u : SourceUnit) (c : Candidate) : Prop :=
  ∃ node, c.node? = some node ∧ ∃ scope ∈ SuppressionScope.find u.source u.root,
    (∃ name ∈ scope.names, name = c.violation.rule.name ∨ name = "all" ∨ name = "sift") ∧
    scope.declaration.span.startByte ≤ node.span.startByte ∧ node.span.endByte ≤ scope.declaration.span.endByte

/-- The rule looks for a scope around the node that covers its name. -/
private theorem Candidate.isSuppressed_iff {u : SourceUnit} {c : Candidate} :
    SuppressionScope.suppresses (SuppressionScope.find u.source u.root) c.violation.rule.name c.node? = true ↔
      c.IsSuppressed u := by
  simp only [SuppressionScope.suppresses, Option.any_eq_true, List.any_eq_true, Bool.and_eq_true,
    SuppressionScope.covers_iff, Node.contains, Span.contains_iff, IsSuppressed]

instance (u : SourceUnit) (c : Candidate) : Decidable (c.IsSuppressed u) :=
  decidable_of_iff _ Candidate.isSuppressed_iff

/-- The same as an equation between truth values. -/
private theorem Candidate.suppresses_eq_decide (u : SourceUnit) (c : Candidate) :
    SuppressionScope.suppresses (SuppressionScope.find u.source u.root) c.violation.rule.name c.node? =
      decide (c.IsSuppressed u) := by
  rw [Bool.eq_iff_iff, isSuppressed_iff, decide_eq_true_iff]

/-- What is found at no node cannot be suppressed. -/
private theorem Candidate.not_isSuppressed_of_file {u : SourceUnit} {c : Candidate} (h : c.node?.isNone = true) :
    ¬ c.IsSuppressed u := by
  rintro ⟨node, hnode, -⟩
  simp [hnode] at h

/-! ## What is shown -/

/-- The candidates that no scope suppresses are shown, and the others are counted. -/
def Yield.ofShown (hidden : Candidate → Bool) (candidates : List Candidate) (failures : List RuleFailure) : Yield :=
  ⟨(candidates.filter (!hidden ·)).map (·.violation), candidates.countP hidden, failures⟩

/-- Candidates of two rules are shown one after the other. -/
private theorem Yield.append_ofShown (hidden : Candidate → Bool) (first second : List Candidate)
    (failures failures' : List RuleFailure) :
    (ofShown hidden first failures).append (ofShown hidden second failures') =
      ofShown hidden (first ++ second) (failures ++ failures') := by
  simp [ofShown, append]

/-- What one rule shows. Its own name is that of every candidate it has. -/
private theorem Rule.yield_eq (scopes : List SuppressionScope) (u : SourceUnit) (rule : Rule) :
    rule.yield scopes u =
      .ofShown (fun c => SuppressionScope.suppresses scopes c.violation.rule.name c.node?) (rule.candidatesIn u)
        (rule.failureIn? u).toList := by
  have hfailures := rule.failures_yield scopes u
  rw [← hfailures]
  unfold candidatesIn yield
  cases rule.isEnabled with
  | false => rfl
  | true =>
    cases rule.appliesTo u with
    | error e => rfl
    | ok applies =>
      cases applies with
      | false => rfl
      | true =>
        cases happly : rule.apply u with
        | error fault => rfl
        | ok candidates =>
          -- the name of a candidate is that of its rule
          have hname : ∀ c ∈ candidates, SuppressionScope.suppresses scopes rule.name c.node? =
              SuppressionScope.suppresses scopes c.violation.rule.name c.node? := by
            intro c hc
            obtain ⟨finding, rfl⟩ := exists_finding_of_mem_apply happly hc
            rfl
          simp only [Contribution.ofCandidates, Yield.ofShown]
          congr 1
          · exact congrArg _ (List.filter_congr fun c hc => by rw [hname c hc])
          · exact List.countP_congr fun c hc => by rw [hname c hc]

/-- What the rules show one after another. -/
theorem concat_yield_eq (scopes : List SuppressionScope) (u : SourceUnit) (rules : List Rule) :
    Yield.concat (rules.map (Rule.yield scopes u)) =
      .ofShown (fun c => SuppressionScope.suppresses scopes c.violation.rule.name c.node?)
        (rules.flatMap (Rule.candidatesIn u)) (rules.filterMap (Rule.failureIn? u)) := by
  induction rules with
  | nil => rfl
  | cons rule rest ih =>
    rw [List.map_cons, Yield.concat_cons, ih, rule.yield_eq, Yield.append_ofShown, List.flatMap_cons,
      List.filterMap_cons]
    cases rule.failureIn? u <;> rfl

/-! ## Two analyses -/

/-- The analyses of a unit with its annotations respected and without, for rules that found the candidates. -/
structure OnlyRemoves (u : SourceUnit) (candidates : List Candidate) (shown all : FileAnalysis) : Prop where
  all_violations : all.violations = candidates.map (·.violation)
  shown_violations : shown.violations = (candidates.filter fun c => ¬ c.IsSuppressed u).map (·.violation)
  sublist : List.Sublist shown.violations all.violations
  length : shown.violations.length + shown.suppressed = all.violations.length
  suppressed : shown.suppressed = candidates.countP fun c => c.IsSuppressed u
  all_suppressed : all.suppressed = 0
  file : List.Sublist ((candidates.filter (·.node?.isNone)).map (·.violation)) shown.violations
  state : shown.state = all.state
  failures : shown.failures = all.failures

/-- Without scopes everything is shown. -/
private theorem Yield.ofShown_nil (candidates : List Candidate) (failures : List RuleFailure) :
    ofShown (fun c => SuppressionScope.suppresses [] c.violation.rule.name c.node?) candidates failures =
      ⟨candidates.map (·.violation), 0, failures⟩ := by
  have hnone : ∀ c : Candidate, SuppressionScope.suppresses [] c.violation.rule.name c.node? = false := by
    intro c
    cases c.node? <;> simp [SuppressionScope.suppresses]
  simp [ofShown, hnone]

/-- Every candidate is either shown or counted. -/
private theorem Yield.length_ofShown (hidden : Candidate → Bool) (candidates : List Candidate)
    (failures : List RuleFailure) :
    (ofShown hidden candidates failures).violations.length + (ofShown hidden candidates failures).suppressed =
      candidates.length := by
  simp only [ofShown, List.length_map]
  rw [← List.countP_eq_length_filter, Nat.add_comm, List.length_eq_countP_add_countP hidden]
  simp only [Bool.not_eq_true, Bool.decide_eq_false]

/-- With annotations respected and without, validated rules give analyses that differ only by what is
    suppressed. -/
theorem analyzes_suppressions (u : SourceUnit) (rules : List Rule) (h : ∀ rule ∈ rules, rule.validate = .ok ()) :
    ∃ shown all, Analyzes u true rules shown ∧ Analyzes u false rules all ∧
      OnlyRemoves u (rules.flatMap (Rule.candidatesIn u)) shown all := by
  obtain ⟨shown, hrun, hyield⟩ := exists_analyzes h u true
  obtain ⟨all, hrunAll, hyieldAll⟩ := exists_analyzes h u false
  -- both analyses got through
  have hstate : ∀ {useSuppressions : Bool} {a : FileAnalysis}, Analyzes u useSuppressions rules a →
      a.state = .rulesApplied := by
    intro useSuppressions a hanalyzes
    obtain ⟨analyzer, -, ha⟩ := hanalyzes 1
    exact Analyzer.state_of_analyzeUnit ha
  rw [concat_yield_eq] at hyield hyieldAll
  generalize rules.flatMap (Rule.candidatesIn u) = candidates at *
  -- without annotations there is no scope, and else there are those of the unit
  have hempty : SuppressionScope.respected u false = [] := rfl
  have hfind : SuppressionScope.respected u true = SuppressionScope.find u.source u.root := rfl
  rw [hempty, Yield.ofShown_nil] at hyieldAll
  simp only [hfind, Candidate.suppresses_eq_decide] at hyield
  have hall_violations : all.violations = candidates.map (·.violation) := congrArg Yield.violations hyieldAll
  have hviolations : shown.violations = (candidates.filter fun c => ¬ c.IsSuppressed u).map (·.violation) := by
    refine (congrArg Yield.violations hyield).trans ?_
    simp only [Yield.ofShown, decide_not]
  have hsuppressed : shown.suppressed = candidates.countP fun c => c.IsSuppressed u :=
    congrArg Yield.suppressed hyield
  refine ⟨shown, all, hrun, hrunAll, hall_violations, hviolations, ?_, ?_, hsuppressed,
    congrArg Yield.suppressed hyieldAll, ?_, (hstate hrun).trans (hstate hrunAll).symm, ?_⟩
  · rw [hviolations, hall_violations]
    exact List.filter_sublist.map _
  · -- what is not shown is counted
    have hlength : shown.violations.length + shown.suppressed = candidates.length := by
      rw [hyield, Yield.length_ofShown]
    rw [hall_violations, List.length_map]
    exact hlength
  · -- a candidate without a node passes the filter
    rw [hviolations]
    refine List.Sublist.map _ (List.monotone_filter_right candidates fun c hc => ?_)
    exact decide_eq_true (Candidate.not_isSuppressed_of_file hc)
  · exact (congrArg Yield.failures hyield).trans (congrArg Yield.failures hyieldAll).symm

/-- A rule that finds the file and its classes. -/
def classRule : Rule :=
  ⟨"StubRule", "Classes", .handlers [⟨"program", .flagFile, some "file", true⟩,
    ⟨"class_declaration", .flagNode, some "class", true⟩], {}⟩

/-- A rule that finds a class and fails in its body. -/
def bodyRule : Rule :=
  ⟨"StubRule", "Bodies", .handlers [⟨"class_declaration", .flagNode, some "class", true⟩,
    ⟨"class_body", .fail, some "broken", true⟩], {}⟩

/-- The first of the two classes is annotated, so its candidate is left out. -/
theorem analyzes_suppressions_annotated :
    (∀ rule ∈ [bodyRule, classRule, .duplicateImport], rule.validate = .ok ()) ∧
      ∃ shown all,
        Analyzes ⟨"a/A.java", SuppressionScope.annotatedSource, Node.ofConcrete SuppressionScope.annotatedTree⟩ true
          [bodyRule, classRule, .duplicateImport] shown ∧
        Analyzes ⟨"a/A.java", SuppressionScope.annotatedSource, Node.ofConcrete SuppressionScope.annotatedTree⟩ false
          [bodyRule, classRule, .duplicateImport] all ∧
        List.Sublist shown.violations all.violations ∧ all.violations.length = 3 ∧ shown.violations.length = 2 ∧
        shown.suppressed = 1 ∧ all.suppressed = 0 ∧ shown.failures = all.failures := by
  have hvalid : ∀ rule ∈ [bodyRule, classRule, .duplicateImport], rule.validate = .ok () := forM_eq_ok_iff.1 rfl
  obtain ⟨shown, all, hshown, hall, h⟩ := analyzes_suppressions
    ⟨"a/A.java", SuppressionScope.annotatedSource, Node.ofConcrete SuppressionScope.annotatedTree⟩ _ hvalid
  -- the first rule fails, so the candidates are those of the second: the file and the two classes
  have hlength : all.violations.length = 3 := by
    rw [h.all_violations, List.length_map]
    decide +kernel
  have hsuppressed : shown.suppressed = 1 := by
    rw [h.suppressed]
    decide +kernel
  have hshownLength := h.length
  exact ⟨hvalid, shown, all, hshown, hall, h.sublist, hlength, by omega, hsuppressed, h.all_suppressed, h.failures⟩

end JavaLint
