import JavaLint.Proofs.Report.Failures

/-!
# Reports on what accepted rules find

An analyzer accepts rules by their priorities and filters. A report also shows their descriptions, which nothing has
checked by then. So the only thing that can keep it from being made is a rule whose description is set and is not a
text, and only if it is this rule that is described under its name.

- `Analyzer.Finds`: the violations that an analyzer can come up with
- `build_eq_error_iff`, `ruleDescriptionRow_eq_error`: where a report fails
- `build_acceptedRules`: when there is a report on what accepted rules found, and how it fails otherwise
- `build_numberedDescription`: an accepted rule that cannot be reported
-/

namespace JavaLint

/-! ## What an analyzer finds -/

namespace Analyzer

/-- The violation is in the analysis of some source or of some file. -/
inductive Finds (analyzer : Analyzer) (v : Violation) : Prop where
  | inSource {path : String} {source : Bytes} {tree : Concrete} {a : FileAnalysis}
    (h : analyzer.analyzeSource path source tree = .ok a) (hv : v ∈ a.violations) : Finds analyzer v
  | inFile {files : FileTree} {p : Path} {path : Option String} {a : FileAnalysis}
    (h : analyzer.analyzeFile files p path = .ok a) (hv : v ∈ a.violations) : Finds analyzer v

variable {rules : List Rule} {useSuppressions : Bool} {workers : Int} {analyzer : Analyzer}

/-- Violations come from the rules, or they say that there is no syntax tree. -/
private theorem Finds.rule_mem (hanalyzer : ofRules (some rules) useSuppressions workers = .ok analyzer)
    {v : Violation} (h : analyzer.Finds v) : v.rule ∈ rules ∨ v.rule = .parseFailure := by
  cases h with
  | @inSource path source tree a h hv =>
    rw [analyzeSource] at h
    cases hparse : SourceUnit.parse path source tree with
    -- the source could not be parsed
    | error failure =>
      rw [hparse] at h
      obtain rfl := Except.ok.inj h
      obtain rfl := List.mem_singleton.1 hv
      exact .inr rfl
    | ok u =>
      rw [hparse] at h
      obtain ⟨analysis, hunit, hlog⟩ := bind_eq_ok_iff.1 h
      obtain rfl := Except.ok.inj hlog
      exact .inl (rule_mem_of_analyzeUnit hanalyzer hunit hv)
  | @inFile files p path a h hv =>
    rw [analyzeFile] at h
    split at h
    · -- the file could not be read or parsed
      obtain rfl := Except.ok.inj h
      obtain rfl := List.mem_singleton.1 hv
      exact .inr rfl
    · cases h
    · obtain ⟨analysis, hunit, hlog⟩ := bind_eq_ok_iff.1 h
      obtain rfl := Except.ok.inj hlog
      exact .inl (rule_mem_of_analyzeUnit hanalyzer (mapError_eq_ok_iff.1 hunit) hv)

/-- What an analyzer finds has a priority from one to four. -/
private theorem Finds.isRanked (hanalyzer : ofRules (some rules) useSuppressions workers = .ok analyzer)
    {v : Violation} (h : analyzer.Finds v) : v.IsRanked := by
  rcases h.rule_mem hanalyzer with hrule | hrule
  · exact Rule.isRanked_of_validate (validate_of_ofRules hanalyzer v.rule hrule)
  · exact ⟨1, by rw [hrule]; rfl, by decide, by decide⟩

end Analyzer

namespace Report

/-! ## Where a report fails -/

/-- If everything can be shown, a report fails where its rules are described. -/
theorem build_eq_error_iff [Coercion] {tree : Directory} {maxPriority : Int} (hlow : Rule.minPriority ≤ maxPriority)
    (hhigh : maxPriority ≤ Rule.maxPriority) (hall : ∀ f ∈ tree.allFiles, CanBeShown maxPriority f)
    {title : Option String} {bundle : Option Bundle} {e : Error} :
    build (some tree) maxPriority title bundle = .error e ↔
      describeRules bundle (indexedRules (shownViolations maxPriority tree)) = .error e := by
  -- the steps before are known to succeed
  have hcheck := checkWithin_eq_ok maxPriority fun f hf => (hall f hf).comparable
  simp only [build, hlow, hhigh, and_self, if_true, hcheck, sectionsOf_eq hall]
  cases describeRules bundle (indexedRules (shownViolations maxPriority tree)) <;>
    simp [bind, Except.bind, pure, Except.pure]

/-- The error for a description that is not a text. -/
def descriptionError : Error :=
  .invalidRecord .ruleDescriptionRow [⟨"description", .notText⟩]

/-- The row of a rule with a number for its priority fails only if the rule cannot be described. -/
theorem ruleDescriptionRow_eq_error [Coercion] {rule : Rule} {priority : Int}
    (h : Coercion.toInt rule.priority = .ok priority) {bundle : Option Bundle} {index : Nat} {e : Error}
    (herror : ruleDescriptionRow bundle index rule = .error e) :
    e = descriptionError ∧ ¬ IsDescribable rule := by
  constructor
  · rw [ruleDescriptionRow, h] at herror
    -- the priority is a number, so it is the description that fails
    cases htext : Coercion.toText (Bundle.describe bundle rule.name rule.properties.description) with
    | error fault =>
      simp only [htext] at herror
      obtain rfl := Except.error.inj herror
      rw [Coercion.toText_eq_error htext]
      rfl
    | ok description =>
      simp only [htext] at herror
      cases herror
  · rw [← ruleDescriptionRow_ok_iff h bundle index, herror]
    simp

/-- Descriptions of rules with numbers for their priorities fail only if one of the rules cannot be described. -/
private theorem describeRules_eq_error [Coercion] {rules : List Rule}
    (h : ∀ rule ∈ rules, ∃ n, Coercion.toInt rule.priority = .ok n) {bundle : Option Bundle} {e : Error}
    (herror : describeRules bundle rules = .error e) :
    e = descriptionError ∧ ∃ rule ∈ rules, ¬ IsDescribable rule := by
  obtain ⟨⟨rule, index⟩, hmem, hrow⟩ := exists_mem_of_mapM_eq_error herror
  have hrule : rule ∈ rules := List.fst_mem_of_mem_zipIdx hmem
  obtain ⟨priority, hpriority⟩ := h rule hrule
  obtain ⟨he, hnot⟩ := ruleDescriptionRow_eq_error hpriority hrow
  exact ⟨he, rule, hrule, hnot⟩

/-- A report on ranked violations is made, or it fails with the error for a description that is not a text. -/
private theorem build_of_ranked [Coercion] {tree : Directory} {maxPriority : Int}
    (hranked : ∀ f ∈ tree.allFiles, IsRankedFile f) (hlow : Rule.minPriority ≤ maxPriority)
    (hhigh : maxPriority ≤ Rule.maxPriority) (title : Option String) (bundle : Option Bundle) :
    ((∃ report, build (some tree) maxPriority title bundle = .ok report) ∧
      ∀ rule ∈ indexedRules (shownViolations maxPriority tree), IsDescribable rule) ∨
    (build (some tree) maxPriority title bundle = .error descriptionError ∧
      ∃ rule ∈ indexedRules (shownViolations maxPriority tree), ¬ IsDescribable rule) := by
  have hall := canBeShown_of_ranked hranked maxPriority
  cases hbuild : build (some tree) maxPriority title bundle with
  | ok report =>
    exact .inl ⟨⟨report, rfl⟩, ((exists_build_eq_ok_iff hlow hhigh tree title bundle).1 ⟨report, hbuild⟩).2⟩
  | error e =>
    -- everything can be shown, so it fails at a description
    have herror := (build_eq_error_iff hlow hhigh hall).1 hbuild
    obtain ⟨rfl, hnot⟩ := describeRules_eq_error
      (exists_toInt_of_mem_indexedRules (isShowable_of_canBeShown hall)) herror
    exact .inr ⟨rfl, hnot⟩

/-! ## Reports on accepted rules -/

/-- The rule of parse failures has no description of its own. -/
private theorem isDescribable_parseFailure : IsDescribable .parseFailure := nofun

/-- For all rules that an analyzer accepts and every tree of violations that it finds, up to every priority from one to
    four and with every bundle or none: either there is a report, and every rule in its index can be described, or it
    fails with the error for a description that is not a text, and one of the accepted rules that are in the index has
    such a description. So there is a report whenever all rules can be described. -/
theorem build_acceptedRules [Coercion] (rules : List Rule) (useSuppressions : Bool) (workers : Int)
    (analyzer : Analyzer) (hanalyzer : Analyzer.ofRules (some rules) useSuppressions workers = .ok analyzer)
    (tree : Directory) (hfound : ∀ f ∈ tree.allFiles, ∀ v ∈ f.violations, analyzer.Finds v) (maxPriority : Int)
    (hlow : Rule.minPriority ≤ maxPriority) (hhigh : maxPriority ≤ Rule.maxPriority) (title : Option String)
    (bundle : Option Bundle) :
    ((∀ rule ∈ rules, IsDescribable rule) →
      ∃ report, build (some tree) maxPriority title bundle = .ok report) ∧
    (((∃ report, build (some tree) maxPriority title bundle = .ok report) ∧
        ∀ rule ∈ indexedRules (shownViolations maxPriority tree), IsDescribable rule) ∨
      (build (some tree) maxPriority title bundle = .error descriptionError ∧
        ∃ rule ∈ rules, rule ∈ indexedRules (shownViolations maxPriority tree) ∧ ¬ IsDescribable rule)) := by
  have hranked : ∀ f ∈ tree.allFiles, IsRankedFile f := fun f hf v hv => (hfound f hf v hv).isRanked hanalyzer
  rcases build_of_ranked hranked hlow hhigh title bundle with hbuilt | ⟨herror, rule, hrule, hnot⟩
  · exact ⟨fun _ => hbuilt.1, .inl hbuilt⟩
  · -- the rule is not that of parse failures, which can be described
    have hmem : rule ∈ rules := by
      obtain ⟨v, hv, rfl⟩ := mem_indexedRules hrule
      obtain ⟨f, hf, hvf⟩ := mem_shownViolations hv
      refine ((hfound f hf v hvf).rule_mem hanalyzer).resolve_right fun hparse => ?_
      rw [hparse] at hnot
      exact hnot isDescribable_parseFailure
    exact ⟨fun hdescribable => absurd (hdescribable rule hmem) hnot, .inr ⟨herror, rule, hmem, hrule, hnot⟩⟩

/-- The shipped rule against repeated imports with this description. -/
def importRule (description : Setting) : Rule :=
  ⟨"DuplicateImportRule", "DuplicateImport", .duplicateImport, { priority := .int 3, description := description }⟩

/-- The tree of an import of `a.B` in a line of its own, which starts at this byte. -/
def importAt (start row : Nat) : Concrete :=
  let part (kind : String) (field : Option String) (named : Bool) (first last : Nat) (children : List Concrete) :=
    Concrete.mk kind field named false false ⟨start + first, start + last, row, first, row, last⟩ children
  part "import_declaration" none true 0 11 [part "import" none false 0 6 [],
    part "scoped_identifier" none true 7 10 [part "identifier" (some "scope") true 7 8 [],
      part "." none false 8 9 [], part "identifier" (some "name") true 9 10 []],
    part ";" none false 10 11 []]

/-- The analysis of a source with the same import in two lines. -/
def analyzeRepeatedImport (analyzer : Analyzer) : Except ConfigError FileAnalysis :=
  analyzer.analyzeSource "A.java" "import a.B;\nimport a.B;\n".toUTF8.toList
    ⟨"program", none, true, false, false, ⟨0, 24, 0, 0, 2, 0⟩, [importAt 0 0, importAt 12 1]⟩

/-- A tree with the results of one file in it. -/
def treeOf (a : FileAnalysis) : Directory :=
  ⟨some "", 1, true, [.inl a.results]⟩

/-- There is one file in the tree. -/
private theorem allFiles_treeOf (a : FileAnalysis) : (treeOf a).allFiles = [a.results] := by
  simp [treeOf, Directory.allFiles, Directory.directories, Directory.directoriesIn, Directory.files]

/-- The rule of the only violation is the only one to be described. -/
private theorem indexedRules_treeOf {a : FileAnalysis} {v : Violation} {maxPriority : Int} (h : a.violations = [v])
    (hwithin : v.isWithin maxPriority = true) :
    indexedRules (shownViolations maxPriority (treeOf a)) = [v.rule] := by
  have hshown : shownViolations maxPriority (treeOf a) = [v] := by
    simp [shownViolations, treeOf, Directory.directories, Directory.directoriesIn, Directory.files, visible,
      FileAnalysis.results, h, hwithin]
  rw [hshown]
  simp [indexedRules, firedRules]

/-- What is in the tree was found by the analyzer. -/
private theorem finds_repeatedImport {analyzer : Analyzer} {a : FileAnalysis}
    (h : analyzeRepeatedImport analyzer = .ok a) :
    ∀ f ∈ (treeOf a).allFiles, ∀ v ∈ f.violations, analyzer.Finds v := by
  intro f hf v hv
  rw [allFiles_treeOf, List.mem_singleton] at hf
  rw [hf] at hv
  exact .inSource h hv

/-- If the only rule found something under its name, then it was this rule, and it found one thing. -/
private theorem exists_repeatedImport {description : Setting} {analyzer : Analyzer}
    (hanalyzer : Analyzer.ofRules (some [importRule description]) true 1 = .ok analyzer)
    (h : (analyzeRepeatedImport analyzer).toOption.map (·.violations.map (·.rule.name)) = some ["DuplicateImport"]) :
    ∃ a v, analyzeRepeatedImport analyzer = .ok a ∧ a.violations = [v] ∧ v.rule = importRule description := by
  cases hrun : analyzeRepeatedImport analyzer with
  | error e =>
    rw [hrun] at h
    cases h
  | ok a =>
    rw [hrun] at h
    obtain ⟨v, hviolations, hname⟩ := List.map_eq_singleton_iff.1 (Option.some.inj h)
    have hfound : analyzer.Finds v := .inSource hrun (by rw [hviolations]; exact List.mem_singleton_self v)
    refine ⟨a, v, rfl, hviolations, ?_⟩
    -- there is one rule, and a parse failure has another name
    rcases hfound.rule_mem hanalyzer with hrule | hparse
    · exact List.mem_singleton.1 hrule
    · rw [hparse] at hname
      exact absurd hname (by decide)

/-- A rule with a text for its description finds a repeated import, and there is a report on it. -/
theorem build_acceptedRules_described :
    ∃ analyzer a v report, Analyzer.ofRules (some [importRule (.text "Import it once.")]) true 1 = .ok analyzer ∧
      analyzeRepeatedImport analyzer = .ok a ∧ a.violations = [v] ∧
      (∀ f ∈ (treeOf a).allFiles, ∀ v ∈ f.violations, analyzer.Finds v) ∧
      Rule.minPriority ≤ 3 ∧ 3 ≤ Rule.maxPriority ∧ build (some (treeOf a)) 3 none none = .ok report := by
  have hanalyzer : Analyzer.ofRules (some [importRule (.text "Import it once.")]) true 1 =
      .ok ⟨[importRule (.text "Import it once.")], true, 1⟩ := rfl
  obtain ⟨a, v, hrun, hviolations, -⟩ := exists_repeatedImport hanalyzer (by decide +kernel)
  have hfound := finds_repeatedImport hrun
  -- the only rule has a text for description
  have hdescribable : ∀ rule ∈ [importRule (.text "Import it once.")], IsDescribable rule := by
    intro rule hrule _
    rw [List.mem_singleton.1 hrule]
    exact ⟨_, rfl⟩
  obtain ⟨report, hreport⟩ := (build_acceptedRules _ true 1 _ hanalyzer (treeOf a) hfound 3 (by decide) (by decide)
    none none).1 hdescribable
  exact ⟨_, a, v, report, hanalyzer, hrun, hviolations, hfound, by decide, by decide, hreport⟩

/-- A number is accepted as a description, the rule finds something, and then there is no report on it. -/
theorem build_numberedDescription :
    ∃ analyzer a v, Analyzer.ofRules (some [importRule (.int 5)]) true 1 = .ok analyzer ∧
      analyzeRepeatedImport analyzer = .ok a ∧ a.violations = [v] ∧
      build (some (treeOf a)) 3 none none = .error descriptionError := by
  have hanalyzer : Analyzer.ofRules (some [importRule (.int 5)]) true 1 = .ok ⟨[importRule (.int 5)], true, 1⟩ := rfl
  obtain ⟨a, v, hrun, hviolations, hrule⟩ := exists_repeatedImport hanalyzer (by decide +kernel)
  refine ⟨_, a, v, hanalyzer, hrun, hviolations, ?_⟩
  -- the rule is the one that is described
  have hindexed : importRule (.int 5) ∈ indexedRules (shownViolations 3 (treeOf a)) := by
    rw [indexedRules_treeOf hviolations (by rw [Violation.isWithin, hrule]; rfl), hrule]
    exact List.mem_singleton_self _
  have hranked : ∀ f ∈ (treeOf a).allFiles, IsRankedFile f :=
    fun f hf v hv => (finds_repeatedImport hrun f hf v hv).isRanked hanalyzer
  have hlow : Rule.minPriority ≤ 3 := by decide
  rcases build_of_ranked hranked hlow (by decide) none none with ⟨-, hdescribable⟩ | ⟨herror, -⟩
  · obtain ⟨text, htext⟩ := hdescribable _ hindexed rfl
    cases htext
  · exact herror

end Report

end JavaLint
