import JavaLint.Analysis
import JavaLint.Proofs.Outcome

/-!
# Rules do not affect each other

The analysis of a file under a list of rules is put together from what each rule yields alone. So it is
additive over concatenation: no rule can change, hide or stop what another one contributes, and a rule that
fails midway leaves nothing behind but its failure.

- `Rule.exists_appliesTo_eq_ok`: a validated rule can always tell whether it applies
- `exists_analyzes`: the analysis under validated rules exists, and what it is made of
- `Rule.yield_unranked`: nothing that a rule yields depends on its priority
- `analyzes_append`: the rules of two lists are independent
-/

namespace JavaLint

/-! ## Validated rules -/

namespace Rule

/-- Validation checks every filter. -/
private theorem checkFilter_of_validate {rule : Rule} (h : rule.validate = .ok ()) (which : Filter) :
    rule.checkFilter which = .ok () := by
  -- the filters come after the priority
  have hall : Filter.all.forM rule.checkFilter = .ok () := by
    rw [validate] at h
    cases hpriority : rule.checkPriority with
    | error e => simp [hpriority, bind, Except.bind] at h
    | ok _ => simpa [hpriority, bind, Except.bind] using h
  exact forM_eq_ok_iff.1 hall which (by cases which <;> decide)

/-- A filter that was validated gives an answer: one that is not null can be read. -/
private theorem exists_passes_eq_ok {rule : Rule} (h : rule.validate = .ok ()) (which : Filter) (expected : Bool)
    (isMatch : WildcardList → Bool) :
    ∃ answer, passes (rule.properties.getFilter which) expected
      (fun value => (WildcardList.ofSetting value).map isMatch) = .ok answer := by
  have hcheck := checkFilter_of_validate h which
  rw [checkFilter] at hcheck
  rw [passes]
  split at hcheck
  · next hnull => exact ⟨true, by rw [hnull]; rfl⟩
  · split
    · -- the check has read the same list before, and would have refused it
      cases hread : WildcardList.ofSetting (rule.properties.getFilter which) with
      | error e => simp [hread, Except.map] at hcheck
      | ok list => exact ⟨isMatch list == expected, rfl⟩
    · exact ⟨true, rfl⟩

/-- Answers that all exist can be put together. -/
private theorem exists_allPass_eq_ok {answers : List (Except ConfigError Bool)}
    (h : ∀ answer ∈ answers, ∃ b, answer = .ok b) : ∃ b, allPass answers = .ok b := by
  induction answers with
  | nil => exact ⟨true, rfl⟩
  | cons answer rest ih =>
    obtain ⟨b, rfl⟩ := h answer List.mem_cons_self
    -- the first answer that is no settles it
    cases b with
    | false => exact ⟨false, rfl⟩
    | true => exact ih fun x hx => h x (List.mem_cons_of_mem _ hx)

/-- A validated rule can tell of every unit whether it applies. -/
theorem exists_appliesTo_eq_ok {rule : Rule} (h : rule.validate = .ok ()) (u : SourceUnit) :
    ∃ b, rule.appliesTo u = .ok b := by
  -- each filter is asked in its own way
  have honlyFiles := exists_passes_eq_ok h .onlyFiles true fun list => list.isMatch (fileSubject list u)
  have hskipFiles := exists_passes_eq_ok h .skipFiles false fun list => list.isMatch (fileSubject list u)
  rw [appliesTo]
  split
  · refine exists_allPass_eq_ok ?_
    simp only [List.forall_mem_cons]
    exact ⟨honlyFiles, hskipFiles, fun x hx => absurd hx List.not_mem_nil⟩
  · -- a unit with a primary type is asked for its class too
    next type _ =>
    have honlyClasses := exists_passes_eq_ok h .onlyClasses true
      fun list => list.matchesAny (type :: u.qualifiedType?.toList)
    have hskipClasses := exists_passes_eq_ok h .skipClasses false
      fun list => list.matchesAny (type :: u.qualifiedType?.toList)
    refine exists_allPass_eq_ok ?_
    simp only [List.cons_append, List.nil_append, List.forall_mem_cons]
    exact ⟨honlyFiles, hskipFiles, honlyClasses, hskipClasses, fun x hx => absurd hx List.not_mem_nil⟩

end Rule

/-! ## What an analysis yields -/

namespace Yield

/-- What is yielded one after another. -/
def concat (yields : List Yield) : Yield :=
  yields.foldr append empty

/-- Nothing, and then something. -/
@[simp]
theorem empty_append (o : Yield) : empty.append o = o := by
  simp [append, empty]

/-- Something, and then nothing. -/
@[simp]
theorem append_empty (o : Yield) : o.append empty = o := by
  simp [append, empty]

/-- It does not matter which of three are put together first. -/
private theorem append_assoc (a b c : Yield) : (a.append b).append c = a.append (b.append c) := by
  simp [append, Nat.add_assoc]

/-- The first, and then the others. -/
theorem concat_cons (o : Yield) (rest : List Yield) : concat (o :: rest) = o.append (concat rest) := rfl

/-- What two lists yield one after the other. -/
private theorem concat_append (a b : List Yield) : concat (a ++ b) = (concat a).append (concat b) := by
  induction a with
  | nil => exact (empty_append _).symm
  | cons o rest ih => rw [List.cons_append, concat_cons, ih, concat_cons, append_assoc]

end Yield

/-- What one rule yields: nothing unless it is enabled and applies, and then its failure alone or what is
    left of its candidates. -/
def Rule.yield (scopes : List SuppressionScope) (u : SourceUnit) (rule : Rule) : Yield :=
  match rule.isEnabled, rule.appliesTo u with
  | true, .ok true =>
    match rule.apply u with
    | .ok candidates => (Contribution.ofCandidates scopes rule candidates []).toYield
    | .error fault => ⟨[], 0, [⟨rule.name, u.path, fault⟩]⟩
  | _, _ => .empty

/-- A rule that is not enabled yields nothing. -/
private theorem Rule.yield_of_not_isEnabled {rule : Rule} (h : rule.isEnabled = false)
    (scopes : List SuppressionScope) (u : SourceUnit) : rule.yield scopes u = .empty := by
  rw [yield, h]

namespace Contribution

/-- A validated rule that is enabled contributes what it yields. -/
private theorem exists_ofRule_eq_ok {rule : Rule} (hvalid : rule.validate = .ok ()) (henabled : rule.isEnabled = true)
    (scopes : List SuppressionScope) (u : SourceUnit) :
    ∃ c, ofRule scopes u rule = .ok c ∧ c.toYield = rule.yield scopes u := by
  obtain ⟨applies, happlies⟩ := Rule.exists_appliesTo_eq_ok hvalid u
  rw [ofRule, Rule.yield, happlies, henabled]
  cases applies with
  | false => exact ⟨_, rfl, rfl⟩
  | true => cases hrun : rule.apply u with
    | ok candidates => exact ⟨_, rfl, rfl⟩
    | error fault => exact ⟨_, rfl, rfl⟩

/-- The run over a list of rules, from what one rule contributes. -/
private theorem exists_ofRules_eq_ok {rules : List Rule}
    (h : ∀ rule ∈ rules, rule.validate = .ok () ∧ rule.isEnabled = true)
    (scopes : List SuppressionScope) (u : SourceUnit) :
    ∃ c, ofRules scopes u rules = .ok c ∧
      c.toYield = Yield.concat (rules.map (Rule.yield scopes u)) := by
  induction rules with
  | nil => exact ⟨⟨.empty, []⟩, rfl, rfl⟩
  | cons rule rest ih =>
    obtain ⟨hvalid, henabled⟩ := h rule List.mem_cons_self
    obtain ⟨first, hfirst, hfirstYield⟩ := exists_ofRule_eq_ok hvalid henabled scopes u
    obtain ⟨others, hothers, hothersYield⟩ := ih fun r hr => h r (List.mem_cons_of_mem _ hr)
    -- the analysis and its yield grow by the first rule in the same way
    refine ⟨first.append others, ?_, ?_⟩
    · rw [ofRules, hfirst, hothers]
      rfl
    · rw [List.map_cons, Yield.concat_cons, ← hfirstYield, ← hothersYield]
      rfl

end Contribution

/-- The unit has this analysis under these rules, whatever the number of workers: the rules pass validation,
    and the enabled ones run. -/
def Analyzes (u : SourceUnit) (useSuppressions : Bool) (rules : List Rule) (a : FileAnalysis) : Prop :=
  ∀ workers, ∃ analyzer, Analyzer.ofRules (some rules) useSuppressions workers = .ok analyzer ∧
    analyzer.analyzeUnit u = .ok a

/-- The scopes that are respected in a unit, whatever the rules are. -/
def SuppressionScope.respected (u : SourceUnit) (useSuppressions : Bool) : List SuppressionScope :=
  if useSuppressions then find u.source u.root else []

open SuppressionScope (respected)

/-- Dropping the disabled rules changes nothing. -/
private theorem concat_yield_filter (rules : List Rule) (scopes : List SuppressionScope) (u : SourceUnit) :
    Yield.concat ((rules.filter (·.isEnabled)).map (Rule.yield scopes u)) =
      Yield.concat (rules.map (Rule.yield scopes u)) := by
  -- a rule that is dropped would have yielded nothing
  induction rules with
  | nil => rfl
  | cons rule rest ih =>
    cases henabled : rule.isEnabled with
    | false =>
      rw [List.filter_cons_of_neg (by simp [henabled]), ih, List.map_cons, Yield.concat_cons,
        Rule.yield_of_not_isEnabled henabled, Yield.empty_append]
    | true =>
      rw [List.filter_cons_of_pos henabled, List.map_cons, List.map_cons, Yield.concat_cons,
        Yield.concat_cons, ih]

/-- The analysis yields what its rules contribute. -/
private theorem Analyzer.exists_analyzeUnit_eq_ok (analyzer : Analyzer) (u : SourceUnit) {c : Contribution}
    (h : Contribution.ofRules (respected u analyzer.useSuppressions) u analyzer.rules = .ok c) :
    ∃ a, analyzer.analyzeUnit u = .ok a ∧ a.toYield = c.toYield := by
  have hscopes : analyzer.scopes u = respected u analyzer.useSuppressions := rfl
  rw [analyzeUnit, hscopes, h]
  exact ⟨_, rfl, rfl⟩

/-- Under validated rules every unit has an analysis, and it yields what the rules yield one after another.
    -/
theorem exists_analyzes {rules : List Rule} (h : ∀ rule ∈ rules, rule.validate = .ok ())
    (u : SourceUnit) (useSuppressions : Bool) :
    ∃ a, Analyzes u useSuppressions rules a ∧
      a.toYield = Yield.concat (rules.map (Rule.yield (respected u useSuppressions) u)) := by
  have hanalyzer : ∀ workers, Analyzer.ofRules (some rules) useSuppressions workers =
      .ok ⟨rules.filter (·.isEnabled), useSuppressions, max 1 workers⟩ := by
    intro workers
    rw [Analyzer.ofRules, forM_eq_ok_iff.2 h]
  -- the rules that run are validated and enabled
  have henabled : ∀ rule ∈ rules.filter (·.isEnabled), rule.validate = .ok () ∧ rule.isEnabled = true := by
    intro rule hrule
    obtain ⟨hmem, htrue⟩ := List.mem_filter.1 hrule
    exact ⟨h rule hmem, htrue⟩
  obtain ⟨c, hc, hyield⟩ :=
    Contribution.exists_ofRules_eq_ok henabled (respected u useSuppressions) u
  rw [concat_yield_filter] at hyield
  obtain ⟨a, ha, hsame⟩ :=
    Analyzer.exists_analyzeUnit_eq_ok ⟨rules.filter (·.isEnabled), useSuppressions, 1⟩ u hc
  -- the number of workers plays no part in the analysis of a unit
  exact ⟨a, fun workers => ⟨_, hanalyzer workers, ha⟩, hsame.trans hyield⟩

/-- Under one rule alone the analysis yields what this rule yields. -/
private theorem exists_analyzes_singleton {rule : Rule} (h : rule.validate = .ok ()) (u : SourceUnit)
    (useSuppressions : Bool) :
    ∃ a, Analyzes u useSuppressions [rule] a ∧ a.toYield = rule.yield (respected u useSuppressions) u := by
  obtain ⟨a, hrun, hyield⟩ := exists_analyzes (List.forall_mem_singleton.2 h) u useSuppressions
  rw [List.map_singleton, Yield.concat_cons] at hyield
  exact ⟨a, hrun, hyield.trans (Yield.append_empty _)⟩

/-! ## Priorities -/

/-- The rule with its priority taken away. -/
def Rule.unranked (rule : Rule) : Rule :=
  { rule with properties := { rule.properties with priority := .null } }

/-- The violation with the priority of its rule taken away. -/
def Violation.unranked (v : Violation) : Violation :=
  { v with rule := v.rule.unranked }

/-- What is yielded, with all priorities taken away. -/
def Yield.unranked (y : Yield) : Yield :=
  { y with violations := y.violations.map Violation.unranked }

/-- Priorities are taken away part by part. -/
private theorem Yield.unranked_append (a b : Yield) : (a.append b).unranked = a.unranked.append b.unranked := by
  simp [append, unranked]

/-- Priorities are taken away from what each rule yields. -/
private theorem Yield.unranked_concat (yields : List Yield) :
    (concat yields).unranked = concat (yields.map unranked) := by
  induction yields with
  | nil => rfl
  | cons y rest ih => rw [concat_cons, unranked_append, ih, List.map_cons, concat_cons]

/-- Without its priority a rule finds the same. -/
private theorem Rule.apply_unranked (rule : Rule) (u : SourceUnit) :
    rule.unranked.apply u = (rule.apply u).map fun candidates =>
      candidates.map fun c => { c with violation := c.violation.unranked } := by
  -- the visit does not look at the priority
  have hscan : rule.unranked.scan u = rule.scan u := rfl
  rw [apply, apply, hscan]
  cases (rule.scan u).fault with
  | some fault => rfl
  | none =>
    simp only [Except.map, List.map_map]
    rfl

/-- Without its priority a rule yields the same. -/
theorem Rule.yield_unranked (scopes : List SuppressionScope) (u : SourceUnit) (rule : Rule) :
    rule.unranked.yield scopes u = (rule.yield scopes u).unranked := by
  have henabled : rule.unranked.isEnabled = rule.isEnabled := rfl
  have happlies : rule.unranked.appliesTo u = rule.appliesTo u := rfl
  rw [yield, yield, henabled, happlies, apply_unranked]
  split
  · -- a priority is only carried along: neither the filter nor the count looks at it
    cases rule.apply u with
    | error fault => rfl
    | ok candidates =>
      simp only [Except.map, Contribution.ofCandidates, Yield.unranked, List.filter_map,
        List.map_map, List.countP_map]
      rfl
  · rfl

/-- Without their priorities the rules yield the same. -/
private theorem concat_yield_unranked (scopes : List SuppressionScope) (u : SourceUnit) (rules : List Rule) :
    (Yield.concat (rules.map (Rule.yield scopes u))).unranked =
      Yield.concat ((rules.map Rule.unranked).map (Rule.yield scopes u)) := by
  rw [Yield.unranked_concat, List.map_map, List.map_map]
  congr 1
  exact List.map_congr_left fun rule _ => (rule.yield_unranked scopes u).symm

/-! ## Independence -/

/-- What one rule may add to an analysis. A rule that fails adds its failure and nothing of what it found
    before. -/
structure Rule.Contributes (u : SourceUnit) (useSuppressions : Bool) (rule : Rule) (y : Yield) : Prop where
  skipped : rule.isEnabled = false ∨ rule.appliesTo u = .ok false → y = ⟨[], 0, []⟩
  failed : rule.isEnabled = true → rule.appliesTo u = .ok true →
    ∀ fault, (rule.scan u).fault = some fault → y = ⟨[], 0, [⟨rule.name, u.path, fault⟩]⟩
  finished : rule.isEnabled = true → rule.appliesTo u = .ok true →
    ∀ candidates, rule.apply u = .ok candidates →
      y.violations = (candidates.filter fun c =>
        !SuppressionScope.suppresses (respected u useSuppressions) rule.name c.node?).map (·.violation) ∧
      y.violations.length + y.suppressed = candidates.length ∧ y.failures = []

/-- What a rule yields is what it may add to an analysis. -/
private theorem Rule.contributes_yield (u : SourceUnit) (useSuppressions : Bool) (rule : Rule) :
    rule.Contributes u useSuppressions (rule.yield (respected u useSuppressions) u) where
  skipped h := by
    rcases h with h | h
    · exact yield_of_not_isEnabled h _ u
    · rw [yield, h]
      cases rule.isEnabled <;> rfl
  failed henabled happlies fault hfault := by
    have happly : rule.apply u = .error fault := by rw [apply, hfault]
    rw [yield, henabled, happlies, happly]
  finished henabled happlies candidates happly := by
    have hyield : rule.yield (respected u useSuppressions) u =
        (Contribution.ofCandidates (respected u useSuppressions) rule candidates []).toYield := by
      rw [yield, henabled, happlies, happly]
    rw [hyield]
    refine ⟨rfl, ?_, rfl⟩
    -- each candidate is either shown or counted as suppressed
    simp only [Contribution.ofCandidates, List.length_map]
    rw [← List.countP_eq_length_filter, Nat.add_comm, List.length_eq_countP_add_countP fun c : Candidate =>
      SuppressionScope.suppresses (respected u useSuppressions) rule.name c.node?]
    simp only [Bool.not_eq_true, Bool.decide_eq_false]

/-- Two lists of rules do not affect each other in the analysis of a unit. Every single rule adds the same
    as it does alone, wherever it stands, and other priorities leave everything else as it is. -/
def AreIndependent (u : SourceUnit) (useSuppressions : Bool) (first second : List Rule) : Prop :=
  ∃ a₁ a₂ a, Analyzes u useSuppressions first a₁ ∧ Analyzes u useSuppressions second a₂ ∧
    Analyzes u useSuppressions (first ++ second) a ∧
    a.violations = a₁.violations ++ a₂.violations ∧ a.suppressed = a₁.suppressed + a₂.suppressed ∧
    a.failures = a₁.failures ++ a₂.failures ∧
    (∀ before rule after, first ++ second = before ++ rule :: after →
      ∃ b alone c, Analyzes u useSuppressions before b ∧ Analyzes u useSuppressions [rule] alone ∧
        Analyzes u useSuppressions after c ∧ rule.Contributes u useSuppressions alone.toYield ∧
        a.toYield = b.toYield.append (alone.toYield.append c.toYield)) ∧
    ∀ others : List Rule, (∀ rule ∈ others, rule.validate = .ok ()) →
      others.map Rule.unranked = (first ++ second).map Rule.unranked →
      ∃ a', Analyzes u useSuppressions others a' ∧
        a'.violations.map Violation.unranked = a.violations.map Violation.unranked ∧
        a'.suppressed = a.suppressed ∧ a'.failures = a.failures

/-- Validated rules do not affect each other, in whatever two lists they stand. -/
theorem analyzes_append (u : SourceUnit) (useSuppressions : Bool) (first second : List Rule)
    (h : ∀ rule ∈ first ++ second, rule.validate = .ok ()) :
    AreIndependent u useSuppressions first second := by
  obtain ⟨h₁, h₂⟩ := List.forall_mem_append.1 h
  obtain ⟨a₁, hrun₁, hyield₁⟩ := exists_analyzes h₁ u useSuppressions
  obtain ⟨a₂, hrun₂, hyield₂⟩ := exists_analyzes h₂ u useSuppressions
  obtain ⟨a, hrun, hyield⟩ := exists_analyzes h u useSuppressions
  -- the rules of both lists yield one after the other
  have happend : a.toYield = a₁.toYield.append a₂.toYield := by
    rw [hyield, hyield₁, hyield₂, List.map_append, Yield.concat_append]
  refine ⟨a₁, a₂, a, hrun₁, hrun₂, hrun, congrArg Yield.violations happend,
    congrArg Yield.suppressed happend, congrArg Yield.failures happend, ?_, ?_⟩
  · intro before rule after hsplit
    -- one rule splits the list in two
    rw [hsplit] at h hyield
    obtain ⟨hbefore, hrest⟩ := List.forall_mem_append.1 h
    obtain ⟨hrule, hafter⟩ := List.forall_mem_cons.1 hrest
    obtain ⟨b, hrunb, hyieldb⟩ := exists_analyzes hbefore u useSuppressions
    obtain ⟨c, hrunc, hyieldc⟩ := exists_analyzes hafter u useSuppressions
    obtain ⟨alone, hrunAlone, hsingle⟩ := exists_analyzes_singleton hrule u useSuppressions
    refine ⟨b, alone, c, hrunb, hrunAlone, hrunc, ?_, ?_⟩
    · rw [hsingle]
      exact rule.contributes_yield u useSuppressions
    · rw [hyield, List.map_append, List.map_cons, Yield.concat_append, Yield.concat_cons, hyieldb,
        hyieldc, hsingle]
  · intro others hothers hsame
    obtain ⟨a', hrun', hyield'⟩ := exists_analyzes hothers u useSuppressions
    -- without priorities the two lists are the same list, and so is what they yield
    have heq : a'.toYield.unranked = a.toYield.unranked := by
      rw [hyield', hyield, concat_yield_unranked, concat_yield_unranked, hsame]
    exact ⟨a', hrun', congrArg Yield.violations heq, (congrArg Yield.suppressed heq :),
      (congrArg Yield.failures heq :)⟩

/-- A rule that finds something and then fails. -/
def failingRule : Rule :=
  ⟨"StubRule", "Failing", .handlers [⟨"program", .flagNode, some "found", true⟩,
    ⟨"block", .fail, some "broken", true⟩], { priority := .int 4 }⟩

/-- A rule for other files, and a rule that is not enabled. -/
def idleRules : List Rule :=
  [⟨"StubRule", "Elsewhere", .handlers [⟨"program", .flagFile, none, true⟩],
      { onlyFiles := .text "Other*.java" }⟩,
    ⟨"StubRule", "Disabled", .handlers [⟨"program", .flagFile, none, true⟩],
      { enabled := .bool false }⟩]

/-- A file with one block in it. -/
def blockUnit : SourceUnit :=
  ⟨"a/A.java", [], ⟨"program", none, ⟨0, 0, 0, 0, 0, 0⟩, [],
    [⟨"block", none, ⟨0, 0, 0, 0, 0, 0⟩, [0], []⟩]⟩⟩

/-- A rule that fails midway, beside rules that have nothing to do. -/
theorem analyzes_append_idleRules :
    (∀ rule ∈ [failingRule] ++ (.duplicateImport :: idleRules), rule.validate = .ok ()) ∧
      AreIndependent blockUnit true [failingRule] (.duplicateImport :: idleRules) := by
  have h : ∀ rule ∈ [failingRule] ++ (.duplicateImport :: idleRules), rule.validate = .ok () :=
    forM_eq_ok_iff.1 rfl
  exact ⟨h, analyzes_append blockUnit true _ _ h⟩

end JavaLint
