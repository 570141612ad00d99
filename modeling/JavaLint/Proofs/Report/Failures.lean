import JavaLint.Proofs.Analysis.Runs
import JavaLint.Proofs.Report.Agreement

/-!
# Parse failures in a report

A file that cannot be read, that is no text, or whose tree is marked as faulty is never passed over: whatever
the rules are and however severe the violations are that a report is limited to, the file has a section of
its own with one row, which says why it has no syntax tree.

- `FileTree.IsFaulty`, `ParseCause.IsOf`: the files without a syntax tree, and why they have none
- `Analyzer.AnalyzesEach.violations_of_isFaulty`: the violation of such a file
- `Analyzer.AnalyzesEach.rule_mem`: every other violation comes from one of the rules
- `ShowsFailures`: a report shows every such file
- `build_showsFailures`: every report on a run does
-/

namespace JavaLint

/-! ## Faulty files -/

/-- The file cannot be read, its content is no text, or its tree is marked as faulty. -/
def FileTree.IsFaulty (files : FileTree) (p : Path) : Prop :=
  match files.read p with
  | .error _ | .ok (.error _) => True
  | .ok (.ok (source, tree)) => (¬ ∃ text, source = Utf8.encode text) ∨ tree.hasError = true

/-- This is why the file has no syntax tree. A syntax error is in some line, counted from one. -/
def ParseCause.IsOf (files : FileTree) (p : Path) : ParseCause → Prop
  | .unreadable fault => files.read p = .ok (.error fault)
  | .notUtf8 fault => ∃ source tree, files.read p = .ok (.ok (source, tree)) ∧
      Utf8.decode? source = .error fault
  | .syntaxError line => ∃ source tree, files.read p = .ok (.ok (source, tree)) ∧
      (∃ text, source = Utf8.encode text) ∧ tree.hasError = true ∧ ∃ n, line = some n ∧ 1 ≤ n

/-- A tree that is marked as faulty has a line for its fault. -/
private theorem Concrete.exists_firstErrorLine_eq_some {tree : Concrete} (h : tree.hasError = true) :
    ∃ line, tree.firstErrorLine = some line ∧ 1 ≤ line := by
  have hsome : tree.firstErrorLine ≠ none := by simp [firstErrorLine_eq_none_iff, h]
  obtain ⟨line, hline⟩ := Option.ne_none_iff_exists'.1 hsome
  exact ⟨line, hline, tree.one_le_of_firstErrorLine_eq_some line hline⟩

namespace SourceUnit

variable {files : FileTree} {p : Path}

/-- A faulty file is not loaded, for a reason that is its own. -/
private theorem load_of_isFaulty (h : files.IsFaulty p) (hnull : p.hasNull = false) (path : String) :
    ∃ cause, load files p (some path) = .error (.parse ⟨path, cause⟩) ∧ cause.IsOf files p := by
  obtain ⟨content, hread⟩ := files.exists_read_eq_ok hnull
  rw [FileTree.IsFaulty, hread] at h
  rw [load, hread]
  cases content with
  | error fault => exact ⟨.unreadable fault, rfl, hread⟩
  | ok content =>
    obtain ⟨source, tree⟩ := content
    simp only [parse, Option.getD_some]
    cases hdecode : Utf8.decode? source with
    | error fault => exact ⟨.notUtf8 fault, rfl, source, tree, hread, hdecode⟩
    | ok text =>
      -- the content is a text, so its tree is marked as faulty
      have htext : ∃ text, source = Utf8.encode text := ⟨text, Utf8.decode?_eq_ok_iff.1 hdecode⟩
      have herror : tree.hasError = true := h.resolve_left (not_not.2 htext)
      simp only [herror, if_true]
      exact ⟨_, rfl, source, tree, hread, htext, herror, Concrete.exists_firstErrorLine_eq_some herror⟩

/-- Every other file is loaded. -/
private theorem load_of_not_isFaulty (h : ¬ files.IsFaulty p) (path : String) :
    ∃ u, load files p (some path) = .ok u := by
  rw [FileTree.IsFaulty] at h
  split at h
  · exact absurd trivial h
  · exact absurd trivial h
  · next source tree hread =>
    rw [not_or, not_not, Bool.not_eq_true] at h
    rw [load, hread]
    exact ⟨_, congrArg (Except.mapError Error.parse) (parse_of_isParsable h path)⟩

end SourceUnit

/-! ## The rules of the violations -/

/-- What a rule yields is a violation of this rule. -/
private theorem Rule.rule_of_mem_yield {rule : Rule} {scopes : List SuppressionScope} {u : SourceUnit}
    {v : Violation} (hv : v ∈ (rule.yield scopes u).violations) : v.rule = rule := by
  obtain ⟨finding, rfl⟩ := exists_finding_of_mem_yield hv
  rfl

/-- What the rules yield are violations of these rules. -/
private theorem rule_mem_of_mem_concat_yield {rules : List Rule} {scopes : List SuppressionScope}
    {u : SourceUnit} {v : Violation}
    (hv : v ∈ (Yield.concat (rules.map (Rule.yield scopes u))).violations) : v.rule ∈ rules := by
  induction rules with
  | nil => cases hv
  | cons rule rest ih =>
    rw [List.map_cons, Yield.concat_cons] at hv
    rcases List.mem_append.1 hv with hfirst | hrest
    · rw [Rule.rule_of_mem_yield hfirst]
      exact List.mem_cons_self
    · exact List.mem_cons_of_mem rule (ih hrest)

/-- A rule that passed validation has a priority from one to four. -/
theorem Rule.isRanked_of_validate {v : Violation} (h : v.rule.validate = .ok ()) : v.IsRanked := by
  unfold validate at h
  cases hcheck : v.rule.checkPriority with
  | error e => simp [hcheck, bind, Except.bind] at h
  | ok _ =>
    unfold checkPriority at hcheck
    -- the priority has to be an integer in the range
    split at hcheck
    · next value hvalue =>
      split at hcheck
      · next hrange => exact ⟨value, by rw [hvalue]; rfl, hrange⟩
      · cases hcheck
    · cases hcheck

/-- Parse failures have the most severe priority. -/
private theorem Violation.isRanked_ofParseFailure (failure : ParseFailure) : (ofParseFailure failure).IsRanked :=
  ⟨1, rfl, by decide, by decide⟩

namespace Analyzer

variable {rules : List Rule} {useSuppressions : Bool} {workers : Int} {analyzer : Analyzer} {files : FileTree}
  {root : Path} {analysisOf : Path → FileAnalysis}

/-- The violations in the analysis of a unit come from the rules. -/
theorem rule_mem_of_analyzeUnit (hanalyzer : ofRules (some rules) useSuppressions workers = .ok analyzer)
    {u : SourceUnit} {a : FileAnalysis} (h : analyzer.analyzeUnit u = .ok a) {v : Violation}
    (hv : v ∈ a.violations) : v.rule ∈ rules := by
  obtain ⟨a', hrun, hyield⟩ := exists_analyzeUnit_of_ofRules hanalyzer u
  obtain rfl : a = a' := Except.ok.inj (h.symm.trans hrun)
  rw [hyield] at hv
  exact rule_mem_of_mem_concat_yield hv

/-- A faulty file has one violation, which says why it has no syntax tree. -/
theorem AnalyzesEach.violations_of_isFaulty (h : analyzer.AnalyzesEach files root analysisOf) {p : Path}
    (hp : IsNamed files root p) (hfaulty : files.IsFaulty p) :
    ∃ failure, failure.cause.IsOf files p ∧ (analysisOf p).violations = [.ofParseFailure failure] := by
  obtain ⟨hnull, relative, hrelative⟩ := hp
  obtain ⟨cause, hload, hcause⟩ := SourceUnit.load_of_isFaulty hfaulty hnull relative
  have hrun := (h p relative hnull hrelative).1
  rw [analyzeFile, hload] at hrun
  rw [← Except.ok.inj hrun]
  exact ⟨_, hcause, rfl⟩

/-- The violations of every other file come from the rules. -/
theorem AnalyzesEach.rule_mem (h : analyzer.AnalyzesEach files root analysisOf)
    (hanalyzer : ofRules (some rules) useSuppressions workers = .ok analyzer) {p : Path}
    (hp : IsNamed files root p) (hfaulty : ¬ files.IsFaulty p) {v : Violation}
    (hv : v ∈ (analysisOf p).violations) : v.rule ∈ rules := by
  obtain ⟨hnull, relative, hrelative⟩ := hp
  obtain ⟨u, hload⟩ := SourceUnit.load_of_not_isFaulty hfaulty relative
  have hrun := (h p relative hnull hrelative).1
  rw [analyzeFile, hload] at hrun
  -- the file is loaded, so its violations are those of the unit
  cases hunit : analyzer.analyzeUnit u with
  | error e => simp [hunit, Except.mapError, bind, Except.bind] at hrun
  | ok a =>
    simp only [hunit, Except.mapError, bind, Except.bind, pure, Except.pure, Except.ok.injEq] at hrun
    rw [← hrun] at hv
    exact rule_mem_of_analyzeUnit hanalyzer hunit hv

/-- Every violation comes from the rules, or its file is faulty and it says so. -/
private theorem AnalyzesEach.rule_mem_or_isFaulty (h : analyzer.AnalyzesEach files root analysisOf)
    (hanalyzer : ofRules (some rules) useSuppressions workers = .ok analyzer) {p : Path}
    (hp : IsNamed files root p) {v : Violation} (hv : v ∈ (analysisOf p).violations) :
    v.rule ∈ rules ∨ files.IsFaulty p ∧ v.rule = .parseFailure := by
  by_cases hfaulty : files.IsFaulty p
  · obtain ⟨failure, -, hviolations⟩ := h.violations_of_isFaulty hp hfaulty
    rw [hviolations, List.mem_singleton] at hv
    rw [hv]
    exact .inr ⟨hfaulty, rfl⟩
  · exact .inl (h.rule_mem hanalyzer hp hfaulty hv)

end Analyzer

namespace Report

/-! ## The sections of faulty files -/

/-- The section shows the file and says in its only row why the file has no syntax tree. -/
structure FileSection.ShowsFailure (files : FileTree) (root p : Path) (s : FileSection) : Prop where
  path : relativeTo files root p = .ok s.path
  rows : ∃ cause : ParseCause, cause.IsOf files p ∧
    s.rows = [⟨"ParseFailure", 1, cause.line?, none, some cause.reason⟩]

/-- A file that has nothing but a parse failure is shown, whatever priorities are. -/
private theorem fileSectionOf_ofParseFailure {f : FileResults} {failure : ParseFailure} {maxPriority : Int}
    (h : f.violations = [.ofParseFailure failure]) (hlow : Rule.minPriority ≤ maxPriority)
    (directory : Option String) :
    fileSectionOf maxPriority directory f =
      some ⟨f.path, displayName directory f.path, [rowOf (.ofParseFailure failure)]⟩ := by
  -- no limit is more severe than a parse failure
  have hwithin : (Violation.ofParseFailure failure).isWithin maxPriority = true := by
    rw [isWithin_eq (Violation.isRanked_ofParseFailure failure), decide_eq_true_eq]
    exact hlow
  simp [fileSectionOf, FileResults.hasWithin, visible, h, hwithin]

/-- Faulty files that lie in one directory are shown one by one. -/
private theorem forall₂_showsFailure {analyzer : Analyzer} {files : FileTree} {root : Path}
    {analysisOf : Path → FileAnalysis} {maxPriority : Int}
    (h : analyzer.AnalyzesEach files root analysisOf) (hlow : Rule.minPriority ≤ maxPriority)
    (directory : Option String) {faulty : List Path}
    (hfaulty : ∀ p ∈ faulty, IsNamed files root p ∧ files.IsFaulty p) :
    List.Forall₂ (FileSection.ShowsFailure files root) faulty
      ((faulty.map fun p => (analysisOf p).results).filterMap (fileSectionOf maxPriority directory)) := by
  induction faulty with
  | nil => exact .nil
  | cons p rest ih =>
    obtain ⟨⟨hnamed, hp⟩, hrest⟩ := List.forall_mem_cons.1 hfaulty
    obtain ⟨failure, hcause, hviolations⟩ := h.violations_of_isFaulty hnamed hp
    -- the analysis is known under the relative path of the file
    have hpath : relativeTo files root p = .ok (analysisOf p).path := by
      obtain ⟨hnull, relative, hrelative⟩ := hnamed
      rw [(h p relative hnull hrelative).2, hrelative]
    rw [List.map_cons, List.filterMap_cons_some (fileSectionOf_ofParseFailure hviolations hlow directory)]
    exact .cons ⟨hpath, failure.cause, hcause, rfl⟩ (ih hrest)

/-- A directory that shows some of its files has a section with their sections. -/
private theorem directorySectionOf_eq_some {maxPriority : Int} {d : Directory}
    (h : d.files.filterMap (fileSectionOf maxPriority d.path) ≠ []) :
    directorySectionOf maxPriority d =
      some ⟨d.path.getD "", d.files.filterMap (fileSectionOf maxPriority d.path)⟩ := by
  unfold directorySectionOf
  split
  · next hnil => exact absurd hnil h
  · rfl

/-- Faulty files that lie in one directory are shown in the section of this directory, in their order. -/
private theorem exists_section_of_isFaulty {analyzer : Analyzer} {files : FileTree} {root : Path}
    {analysisOf : Path → FileAnalysis} {paths : List Path} {run : Run} {maxPriority : Int}
    (h : analyzer.AnalyzesEach files root analysisOf) (hpaths : ∀ p ∈ paths, IsNamed files root p)
    (hrun : run.Assembles (paths.map analysisOf))
    (hlow : Rule.minPriority ≤ maxPriority) {faulty : List Path} {directory : String}
    (hsub : faulty.Sublist paths) (hne : faulty ≠ [])
    (hfaulty : ∀ p ∈ faulty, files.IsFaulty p ∧
      ∃ relative, relativeTo files root p = .ok relative ∧ parentPath relative = directory) :
    ∃ s ∈ sections maxPriority run.results.directories, s.path = directory ∧
      ∃ shown, shown.Sublist s.files ∧
        List.Forall₂ (FileSection.ShowsFailure files root) faulty shown := by
  -- any one of the files names the directory
  obtain ⟨p, hp⟩ := List.exists_mem_of_ne_nil faulty hne
  have hparent : ∀ p ∈ faulty, parentPath (analysisOf p).path = directory := by
    intro p hp
    obtain ⟨-, relative, hrelative, hparent⟩ := hfaulty p hp
    rw [(h p relative (hpaths p (hsub.subset hp)).1 hrelative).2, hparent]
  obtain ⟨d, hd, hpath⟩ := hrun.parent_mem (analysisOf p) (List.mem_map_of_mem (hsub.subset hp))
  rw [hparent p hp] at hpath
  -- the results of the files stand in the directory in the order of the files
  have hlisted : (faulty.map fun p => (analysisOf p).results).Sublist d.files := by
    have hall : (faulty.map analysisOf).filter (parentPath ·.path == directory) =
        faulty.map analysisOf := by
      rw [List.filter_eq_self]
      intro a ha
      obtain ⟨q, hq, rfl⟩ := List.mem_map.1 ha
      exact beq_iff_eq.2 (hparent q hq)
    have hfilter := ((hsub.map analysisOf).filter (parentPath ·.path == directory)).map
      (FileAnalysis.results)
    rw [hall, List.map_map] at hfilter
    rw [hrun.files d hd directory hpath]
    exact hfilter
  have hshown := forall₂_showsFailure h hlow d.path
    fun p hp => ⟨hpaths p (hsub.subset hp), (hfaulty p hp).1⟩
  have hsection := hlisted.filterMap (fileSectionOf maxPriority d.path)
  -- at least one file is shown, so there is a section
  have hnonempty : d.files.filterMap (fileSectionOf maxPriority d.path) ≠ [] := by
    intro hnil
    rw [hnil, List.sublist_nil] at hsection
    rw [hsection] at hshown
    exact hne (List.forall₂_nil_right_iff.1 hshown)
  refine ⟨_, List.mem_filterMap.2 ⟨d, hd, directorySectionOf_eq_some hnonempty⟩, ?_, _, hsection, hshown⟩
  show d.path.getD "" = directory
  rw [hpath, Option.getD_some]

/-- No two sections have the same path, if no two directories have. -/
private theorem nodup_sections_paths {directories : List Directory} (maxPriority : Int)
    (hpaths : ∀ d ∈ directories, ∃ path, d.path = some path)
    (hnodup : (directories.map (·.path)).Nodup) :
    ((sections maxPriority directories).map (·.path)).Nodup := by
  unfold sections
  induction directories with
  | nil => exact List.nodup_nil
  | cons d rest ih =>
    obtain ⟨hd, hrest⟩ := List.forall_mem_cons.1 hpaths
    rw [List.map_cons, List.nodup_cons] at hnodup
    cases hsection : directorySectionOf maxPriority d with
    | none =>
      rw [List.filterMap_cons_none hsection]
      exact ih hrest hnodup.2
    | some s =>
      rw [List.filterMap_cons_some hsection, List.map_cons, List.nodup_cons]
      refine ⟨?_, ih hrest hnodup.2⟩
      -- the same path in a later section would be that of a later directory
      intro hmem
      obtain ⟨s', hs', hsame⟩ := List.mem_map.1 hmem
      obtain ⟨d', hd', hsection'⟩ := List.mem_filterMap.1 hs'
      obtain ⟨path, hpath⟩ := hd
      obtain ⟨path', hpath'⟩ := hrest d' hd'
      rw [path_of_directorySectionOf hsection, path_of_directorySectionOf hsection', hpath, hpath',
        Option.getD_some, Option.getD_some] at hsame
      rw [hpath, ← hsame, ← hpath'] at hnodup
      exact hnodup.1 (List.mem_map_of_mem hd')

/-! ## Reports on a run -/

/-- The report shows the faulty ones among the files of a run under the given rules. Faulty files of one
    directory, any number of them and with repetitions, have a section each in the section of their
    directory, in the order of the run. Unless a rule has taken the name, parse failures are described
    exactly if there is a faulty file. -/
structure ShowsFailures (files : FileTree) (root : Path) (rules : List Rule) (paths : List Path)
    (report : Report) : Prop where
  nodup_paths : (report.directorySections.map (·.path)).Nodup
  sections : ∀ (faulty : List Path) (directory : String), faulty.Sublist paths → faulty ≠ [] →
    (∀ p ∈ faulty, files.IsFaulty p ∧
      ∃ relative, relativeTo files root p = .ok relative ∧ parentPath relative = directory) →
    ∃ s ∈ report.directorySections, s.path = directory ∧
      ∃ shown, shown.Sublist s.files ∧
        List.Forall₂ (FileSection.ShowsFailure files root) faulty shown
  described : (∀ rule ∈ rules, rule.name ≠ "ParseFailure") →
    ((∃ row ∈ report.ruleDescriptions, row.ruleName = "ParseFailure") ↔ ∃ p ∈ paths, files.IsFaulty p)

section Runs

variable {rules : List Rule} {useSuppressions : Bool} {workers : Int} {analyzer : Analyzer} {files : FileTree}
  {root : Path} {analysisOf : Path → FileAnalysis} {paths : List Path} {run : Run} {maxPriority : Int}

/-- Every violation that is shown of a run comes from the rules, or a file of the run is faulty. -/
private theorem rule_of_mem_shownViolations
    (hanalyzer : Analyzer.ofRules (some rules) useSuppressions workers = .ok analyzer)
    (h : analyzer.AnalyzesEach files root analysisOf) (hpaths : ∀ p ∈ paths, IsNamed files root p)
    (hrun : run.Assembles (paths.map analysisOf)) {v : Violation} (hv : v ∈ shownViolations maxPriority run.results) :
    v.rule ∈ rules ∨ (∃ p ∈ paths, files.IsFaulty p) ∧ v.rule = .parseFailure := by
  obtain ⟨f, hf, hvf⟩ := mem_shownViolations hv
  obtain ⟨a, ha, rfl⟩ := hrun.mem_allFiles_iff.1 hf
  obtain ⟨p, hp, rfl⟩ := List.mem_map.1 ha
  rcases h.rule_mem_or_isFaulty hanalyzer (hpaths p hp) hvf with hrule | ⟨hfaulty, hrule⟩
  · exact .inl hrule
  · exact .inr ⟨⟨p, hp, hfaulty⟩, hrule⟩

/-- The violations of a run are ranked. -/
private theorem isRankedFile_of_assembles
    (hanalyzer : Analyzer.ofRules (some rules) useSuppressions workers = .ok analyzer)
    (h : analyzer.AnalyzesEach files root analysisOf) (hpaths : ∀ p ∈ paths, IsNamed files root p)
    (hrun : run.Assembles (paths.map analysisOf)) : ∀ f ∈ run.results.allFiles, IsRankedFile f := by
  intro f hf v hv
  obtain ⟨a, ha, rfl⟩ := hrun.mem_allFiles_iff.1 hf
  obtain ⟨p, hp, rfl⟩ := List.mem_map.1 ha
  rcases h.rule_mem_or_isFaulty hanalyzer (hpaths p hp) hv with hrule | ⟨-, hrule⟩
  · exact Rule.isRanked_of_validate (Analyzer.validate_of_ofRules hanalyzer v.rule hrule)
  · exact ⟨1, by rw [hrule]; rfl, by decide, by decide⟩

/-- A faulty file of a run has its parse failure among the violations that are shown. -/
private theorem exists_mem_shownViolations_of_isFaulty (h : analyzer.AnalyzesEach files root analysisOf)
    (hpaths : ∀ p ∈ paths, IsNamed files root p) (hrun : run.Assembles (paths.map analysisOf))
    (hlow : Rule.minPriority ≤ maxPriority) {p : Path} (hp : p ∈ paths) (hfaulty : files.IsFaulty p) :
    ∃ v ∈ shownViolations maxPriority run.results, v.rule = .parseFailure := by
  obtain ⟨failure, -, hviolations⟩ := h.violations_of_isFaulty (hpaths p hp) hfaulty
  -- the only violation of the file is severe enough to be shown
  refine ⟨.ofParseFailure failure, mem_shownViolations_iff.2 ⟨(analysisOf p).results, ?_, ?_⟩, rfl⟩
  · exact hrun.mem_allFiles_iff.2 ⟨_, List.mem_map_of_mem hp, rfl⟩
  · rw [mem_visible, isWithin_eq (Violation.isRanked_ofParseFailure failure), decide_eq_true_eq]
    refine ⟨?_, hlow⟩
    show Violation.ofParseFailure failure ∈ (analysisOf p).violations
    rw [hviolations]
    exact List.mem_singleton_self _

/-- Parse failures are described if a file of the run is faulty, and otherwise only if a rule has taken the
    name. -/
private theorem exists_ruleName_iff [Coercion]
    (hanalyzer : Analyzer.ofRules (some rules) useSuppressions workers = .ok analyzer)
    (h : analyzer.AnalyzesEach files root analysisOf) (hpaths : ∀ p ∈ paths, IsNamed files root p)
    (hrun : run.Assembles (paths.map analysisOf)) (hlow : Rule.minPriority ≤ maxPriority)
    (hnames : ∀ rule ∈ rules, rule.name ≠ "ParseFailure") {bundle : Option Bundle} {rows : List RuleDescriptionRow}
    (hrows : describeRules bundle (indexedRules (shownViolations maxPriority run.results)) = .ok rows) :
    (∃ row ∈ rows, row.ruleName = "ParseFailure") ↔ ∃ p ∈ paths, files.IsFaulty p := by
  -- a description has the name of its rule
  have hlisted : (∃ row ∈ rows, row.ruleName = "ParseFailure") ↔
      ∃ rule ∈ indexedRules (shownViolations maxPriority run.results), rule.name = "ParseFailure" := by
    rw [← List.mem_map, ← List.mem_map, map_ruleName_describeRules hrows]
  rw [hlisted]
  constructor
  · rintro ⟨rule, hrule, hname⟩
    obtain ⟨v, hv, rfl⟩ := mem_indexedRules hrule
    -- no rule has the name, so it is the violation of a faulty file
    rcases rule_of_mem_shownViolations hanalyzer h hpaths hrun hv with hconfigured | ⟨hfaulty, -⟩
    · exact absurd hname (hnames v.rule hconfigured)
    · exact hfaulty
  · rintro ⟨p, hp, hfaulty⟩
    obtain ⟨v, hv, hrule⟩ := exists_mem_shownViolations_of_isFaulty h hpaths hrun hlow hp hfaulty
    obtain ⟨rule, hmem, hname⟩ := exists_mem_indexedRules hv
    refine ⟨rule, hmem, ?_⟩
    rw [hname, hrule]
    rfl

end Runs

/-- For rules that passed validation, any files and any list of them, the run exists unless something stands
    in its way, and every report on it shows the faulty files. There is a report exactly if the rules that it
    has to describe can be described, so in particular if all rules can. -/
theorem build_showsFailures [Coercion] (rules : List Rule) (useSuppressions : Bool) (workers : Int)
    (analyzer : Analyzer) (hanalyzer : Analyzer.ofRules (some rules) useSuppressions workers = .ok analyzer)
    (files : FileTree) (root : Path) (paths : List Path) (maxPriority : Int) (hlow : Rule.minPriority ≤ maxPriority)
    (hhigh : maxPriority ≤ Rule.maxPriority) (title : Option String) (bundle : Option Bundle) :
    (∀ fault, obstacle? files root paths = some fault →
      analyzer.analyze files (some root) (some paths) = .error (.badPath fault)) ∧
    (obstacle? files root paths = none →
      ∃ run, analyzer.analyze files (some root) (some paths) = .ok run ∧
        ((∃ report, build (some run.results) maxPriority title bundle = .ok report) ↔
          ∀ rule ∈ indexedRules (shownViolations maxPriority run.results), IsDescribable rule) ∧
        ((∀ rule ∈ rules, IsDescribable rule) →
          ∃ report, build (some run.results) maxPriority title bundle = .ok report) ∧
        ∀ report, build (some run.results) maxPriority title bundle = .ok report →
          report.ShowsFailures files root rules paths) := by
  refine ⟨fun fault => Analyzer.analyze_eq_error hanalyzer, fun hclear => ?_⟩
  obtain ⟨analysisOf, h⟩ := Analyzer.exists_analyzesEach hanalyzer files root
  obtain ⟨run, hanalyze, hrun⟩ := Analyzer.exists_analyze_eq_ok h hclear
  have hpaths := (obstacle?_eq_none_iff.1 hclear).2
  have hranked := isRankedFile_of_assembles hanalyzer h hpaths hrun
  have hbuilt := exists_build_eq_ok_iff hlow hhigh run.results title bundle
  -- what the rules find can be shown, so only descriptions can fail
  rw [and_iff_right (canBeShown_of_ranked hranked maxPriority)] at hbuilt
  refine ⟨run, hanalyze, hbuilt, ?_, ?_⟩
  · intro hrules
    rw [hbuilt]
    intro rule hrule
    obtain ⟨v, hv, rfl⟩ := mem_indexedRules hrule
    rcases rule_of_mem_shownViolations hanalyzer h hpaths hrun hv with hconfigured | ⟨-, hfailure⟩
    · exact hrules v.rule hconfigured
    · rw [hfailure]
      exact nofun
  · intro report hreport
    obtain ⟨rows, hrows, rfl⟩ := (build_eq_ok hranked hlow hhigh).1 hreport
    constructor
    · exact nodup_sections_paths maxPriority hrun.exists_path hrun.nodup_paths
    · intro faulty directory hsub hne hfaulty
      exact exists_section_of_isFaulty h hpaths hrun hlow hsub hne hfaulty
    · intro hnames
      exact exists_ruleName_iff hanalyzer h hpaths hrun hlow hnames hrows

/-- A report on the run, limited to the most severe violations, describes parse failures, as one of the
    files is not there. -/
theorem build_showsFailures_scatteredFiles :
    ∃ analyzer run report,
      Analyzer.ofRules (some (failingRule :: .duplicateImport :: idleRules)) true 4 = .ok analyzer ∧
      analyzer.analyze scatteredFiles (some ⟨0, ["src"]⟩) (some scatteredPaths) = .ok run ∧
      Rule.minPriority ≤ 1 ∧ 1 ≤ Rule.maxPriority ∧
      build (some run.results) 1 none none = .ok report ∧
      report.ShowsFailures scatteredFiles ⟨0, ["src"]⟩ (failingRule :: .duplicateImport :: idleRules)
        scatteredPaths ∧
      ∃ row ∈ report.ruleDescriptions, row.ruleName = "ParseFailure" := by
  obtain ⟨-, hruns⟩ := build_showsFailures
    (failingRule :: .duplicateImport :: idleRules) true 4 _ rfl scatteredFiles ⟨0, ["src"]⟩ scatteredPaths 1
    (by decide) (by decide) none none
  obtain ⟨run, hanalyze, -, hbuilt, hshows⟩ := hruns obstacle?_scatteredFiles
  have hdescribable : ∀ rule ∈ failingRule :: .duplicateImport :: idleRules, IsDescribable rule := by
    intro rule hrule hset
    simp only [idleRules, List.mem_cons, List.not_mem_nil, or_false] at hrule
    rcases hrule with rfl | rfl | rfl | rfl <;> cases hset
  have hnames : ∀ rule ∈ failingRule :: .duplicateImport :: idleRules, rule.name ≠ "ParseFailure" := by
    decide
  have hnull : (Path.mk 0 ["src", "Missing.java"]).hasNull = false := by decide
  -- the look-up finds no such entry
  have hfaulty : scatteredFiles.IsFaulty ⟨0, ["src", "Missing.java"]⟩ := by
    simp [FileTree.IsFaulty, FileTree.read, hnull, FileTree.lookup, FileTree.start, Path.isAbsolute,
      FileTree.lookupFrom, FileTree.entriesAt, FileEntry.below?, FileEntry.named?, FileEntry.name,
      scatteredFiles, Except.map]
  obtain ⟨report, hreport⟩ := hbuilt hdescribable
  refine ⟨_, run, report, rfl, hanalyze, by decide, by decide, hreport, hshows report hreport, ?_⟩
  exact ((hshows report hreport).described hnames).2 ⟨_, by decide, hfaulty⟩

/-- A link to itself cannot be read, and no run reports it. -/
theorem unreported_selfLinked :
    selfLinked.IsFaulty ⟨0, ["a.java"]⟩ ∧
      ∃ analyzer, Analyzer.ofRules (some []) true 1 = .ok analyzer ∧
        ∀ run, analyzer.analyze selfLinked (some ⟨0, []⟩) (some [⟨0, ["a.java"]⟩]) ≠ .ok run := by
  have hnull : (Path.mk 0 ["a.java"]).hasNull = false := by decide
  have hlookup : selfLinked.lookup ⟨0, ["a.java"]⟩ = .error .tooManyLinks :=
    congrArg (Except.map Prod.fst) (FileTree.lookupFrom_selfLinked FileTree.maxLinks)
  have hanalyzer : Analyzer.ofRules (some []) true 1 = .ok ⟨[], true, 1⟩ := rfl
  refine ⟨?_, _, hanalyzer, fun run => ?_⟩
  · rw [FileTree.IsFaulty, FileTree.read, if_neg (ne_true_of_eq_false hnull), hlookup]
    trivial
  · -- the path cannot be resolved, so the run ends before it reads the file
    rw [Analyzer.analyze_eq_error hanalyzer obstacle?_selfLinked]
    intro h
    cases h

end Report

end JavaLint
