import JavaLint.Proofs.Report.Sections
import JavaLint.Proofs.Results.Building
import JavaLint.Setting.Lenient

/-!
# The summary and the sections of a report agree

The rows of the summary are totals that directories answer, the sections are made by going through the
directories in tree order, and the index of rules is collected from the violations that are shown. For
every tree that a builder makes the three tell the same story.

- `RowAgrees`: the numbers of a summary row are counts of what some sections show
- `summaryRow_agrees`, `filter_sections`: a directory answers for the sections inside its path
- `build_eq_ok_iff`, `exists_build_eq_ok_iff`: when there is a report on a tree, and what goes into it
- `IsCoherent`: the summary, the sections, the index and the printed document of a report fit together
- `build_coherent`: every report on a tree with ranked violations is coherent
-/

namespace JavaLint.Report

/-! ## Rows against sections -/

/-- The numbers of a summary row are counts of what the sections show. -/
structure RowAgrees (maxPriority : Int) (row : SummaryRow) (shown : List DirectorySection) : Prop where
  priorityCounts : ∀ priority, Rule.minPriority ≤ priority → priority ≤ maxPriority →
    row.priorityCounts.lookup priority = some ((rowsIn shown).countP (·.priority == priority))
  filesWithViolations : row.filesWithViolations = (fileSectionsIn shown).length
  le_totalFiles : (row.filesWithViolations : Int) ≤ row.totalFiles

/-- In a table of values for some keys, a key has its value. -/
private theorem lookup_map_self {g : Int → Nat} {keys : List Int} {key : Int} (h : key ∈ keys) :
    (keys.map fun k => (k, g k)).lookup key = some (g key) := by
  induction keys with
  | nil => exact nomatch h
  | cons k rest ih =>
    rw [List.map_cons, List.lookup_cons]
    by_cases hk : key = k
    · simp [hk]
    · rw [beq_eq_false_iff_ne.2 hk]
      exact ih ((List.mem_cons.1 h).resolve_left hk)

/-- Every priority from one up to the limit is counted. -/
theorem mem_prioritiesUpTo {priority maxPriority : Int} (hlow : Rule.minPriority ≤ priority)
    (hhigh : priority ≤ maxPriority) (hmax : maxPriority ≤ Rule.maxPriority) :
    priority ∈ prioritiesUpTo maxPriority := by
  simp only [Rule.minPriority, Rule.maxPriority] at hlow hmax
  simp only [prioritiesUpTo, Rule.priorities, List.mem_filter, List.mem_cons, List.not_mem_nil,
    or_false, decide_eq_true_eq]
  omega

/-- A directory answers for the sections of the directories below it. -/
theorem summaryRow_agrees {root d : Directory} {maxPriority : Int} (h : root.WellPlaced)
    (hranked : ∀ f ∈ root.allFiles, IsRankedFile f) (hd : d ∈ root.directories)
    (hmax : maxPriority ≤ Rule.maxPriority) (path : Option String) :
    RowAgrees maxPriority (summaryRow maxPriority path d) (sections maxPriority d.directories) where
  priorityCounts := by
    intro priority hlow hhigh
    -- the files below the directory are files of the tree
    have hfiles : ∀ f ∈ d.allFiles, IsRankedFile f := by
      intro f hf
      obtain ⟨e, he, hfe⟩ := List.mem_flatMap.1 hf
      exact hranked f (List.mem_flatMap.2 ⟨e, Directory.mem_directories_trans hd he, hfe⟩)
    rw [countP_rowsIn_sections hfiles hhigh]
    show ((prioritiesUpTo maxPriority).map fun p => (p, d.countWith p)).lookup priority = _
    rw [lookup_map_self (mem_prioritiesUpTo hlow hhigh hmax), Directory.countWith_eq_sum]
    rfl
  filesWithViolations := by
    rw [length_fileSectionsIn_sections]
    exact Directory.filesWithin_eq_countP maxPriority d
  le_totalFiles := by
    show (d.filesWithin maxPriority : Int) ≤ d.totalFiles
    -- the total counts every file, with violations or without
    rw [h.totalFiles_eq_length hd, Directory.filesWithin_eq_countP]
    exact Int.ofNat_le.2 List.countP_le_length

/-- A section has the path of its directory. -/
theorem path_of_directorySectionOf {maxPriority : Int} {d : Directory} {s : DirectorySection}
    (h : directorySectionOf maxPriority d = some s) : s.path = d.path.getD "" := by
  rw [directorySectionOf] at h
  split at h
  · cases h
  · obtain rfl := Option.some.inj h
    rfl

/-- The sections inside a path are those of the directories inside it. -/
theorem filter_sections {root : Directory} (h : root.WellPlaced) (maxPriority : Int) (path : String) :
    (sections maxPriority root.directories).filter (inside path ·.path) =
      sections maxPriority (root.directories.filter (·.isInside path)) := by
  have hpaths : ∀ d ∈ root.directories, ∃ q, d.path = some q := fun d hd => h.exists_path hd
  rw [sections, sections]
  generalize root.directories = directories at hpaths ⊢
  induction directories with
  | nil => rfl
  | cons d rest ih =>
    have hrest := ih fun e he => hpaths e (List.mem_cons_of_mem d he)
    obtain ⟨q, hq⟩ := hpaths d List.mem_cons_self
    have hinside : d.isInside path = inside path q := by
      rw [Directory.isInside, hq, Option.any_some]
    cases hs : directorySectionOf maxPriority d with
    -- a directory without a section is in neither list
    | none =>
      rw [List.filterMap_cons_none hs, hrest, List.filter_cons]
      split
      · rw [List.filterMap_cons_none hs]
      · rfl
    | some s =>
      -- a section is inside a path if its directory is
      have hpath : s.path = q := by
        rw [path_of_directorySectionOf hs, hq, Option.getD_some]
      rw [List.filterMap_cons_some hs, List.filter_cons, List.filter_cons, hrest, hpath, hinside]
      split
      · rw [List.filterMap_cons_some hs]
      · rfl

/-- A report shows no section if no file has a violation up to the priority. -/
private theorem sections_eq_nil_iff (maxPriority : Int) (directories : List Directory) :
    sections maxPriority directories = [] ↔
      (directories.flatMap Directory.files).countP (·.hasWithin maxPriority) = 0 := by
  rw [← length_fileSectionsIn_sections]
  constructor
  · intro hnil
    rw [hnil]
    rfl
  · intro hzero
    -- a section without files is never made
    rw [List.length_eq_zero_iff, fileSectionsIn_sections, List.flatMap_eq_nil_iff] at hzero
    rw [sections, List.filterMap_eq_nil_iff]
    intro d hd
    rw [directorySectionOf, hzero d hd]

/-! ## The rows of the summary -/

/-- The directories that have a row of their own: those below the root with files in them. -/
def listedDirectories (root : Directory) : List Directory :=
  (root.directories.drop 1).filter (·.containsFiles)

/-- The summary has a row for all, and one for each directory that is listed. -/
theorem summarize_eq (maxPriority : Int) (root : Directory) :
    summarize maxPriority root = summaryRow maxPriority none root ::
      (listedDirectories root).map fun d => summaryRow maxPriority d.path d := rfl

/-- A directory that is listed is in the tree. -/
private theorem mem_listedDirectories {root d : Directory} (h : d ∈ listedDirectories root) :
    d ∈ root.directories :=
  List.mem_of_mem_drop (List.mem_filter.1 h).1

/-- No two rows of the summary have the same path. -/
private theorem nodup_summary_paths {root : Directory} (h : root.WellPlaced) (maxPriority : Int) :
    ((summarize maxPriority root).map (·.path)).Nodup := by
  rw [summarize_eq, List.map_cons, List.map_map, List.nodup_cons]
  constructor
  · intro hmem
    obtain ⟨d, hd, hnone⟩ := List.mem_map.1 hmem
    -- only the row for all has no path
    obtain ⟨path, hpath⟩ := h.exists_path (mem_listedDirectories hd)
    rw [show d.path = none from hnone] at hpath
    exact nomatch hpath
  · have hsub : (listedDirectories root).Sublist root.directories :=
      List.filter_sublist.trans (List.drop_sublist 1 root.directories)
    have hnodup : (root.directories.map (·.path)).Nodup := by
      rw [Directory.map_path_directories]
      exact h.nodup_paths
    exact (hsub.map (·.path)).nodup hnodup

/-- A section that is not the root's has exactly one row in the summary. -/
private theorem count_summary_path {root : Directory} (h : root.WellPlaced) {maxPriority : Int}
    {s : DirectorySection} (hs : s ∈ sections maxPriority root.directories) (hne : s.path ≠ "") :
    ((summarize maxPriority root).map (·.path)).count (some s.path) = 1 := by
  refine List.count_eq_one_of_mem (nodup_summary_paths h maxPriority) ?_
  obtain ⟨d, hd, hsection⟩ := List.mem_filterMap.1 hs
  obtain ⟨path, hpath⟩ := h.exists_path hd
  have hspath : s.path = path := by
    rw [path_of_directorySectionOf hsection, hpath, Option.getD_some]
  -- the directory is not the root, whose path is empty
  have hbelow : d ∈ root.directories.drop 1 := by
    rw [Directory.directories_eq] at hd ⊢
    rcases List.mem_cons.1 hd with rfl | hd
    · rw [h.root_path] at hpath
      exact absurd (hspath.trans (Option.some.inj hpath).symm) hne
    · exact hd
  -- a directory with a section has a file, which is counted
  have hfiles : d.containsFiles = true := by
    have hshown : sections maxPriority d.directories ≠ [] := by
      rw [Directory.directories_eq, sections, List.filterMap_cons_some hsection]
      exact List.cons_ne_nil _ _
    rw [Ne, sections_eq_nil_iff] at hshown
    have hle : (d.directories.flatMap Directory.files).countP (·.hasWithin maxPriority) ≤
        d.allFiles.length := List.countP_le_length
    have htotal := h.totalFiles_eq_length hd
    simp only [Directory.containsFiles, decide_eq_true_eq]
    omega
  rw [summarize_eq, List.map_cons, List.map_map, hspath, ← hpath]
  exact List.mem_cons_of_mem _ (List.mem_map.2 ⟨d, List.mem_filter.2 ⟨hbelow, hfiles⟩, rfl⟩)

/-! ## The index of rules -/

/-- A rule is there because it found something. -/
theorem mem_firedRules {rule : Rule} {shown : List Violation} (h : rule ∈ firedRules shown) :
    ∃ v ∈ shown, v.rule = rule := by
  induction shown with
  | nil => exact nomatch h
  | cons v rest ih =>
    rw [firedRules, List.mem_cons] at h
    rcases h with rfl | h
    · exact ⟨v, List.mem_cons_self, rfl⟩
    · obtain ⟨w, hw, hrule⟩ := ih (List.mem_filter.1 h).1
      exact ⟨w, List.mem_cons_of_mem v hw, hrule⟩

/-- Every rule that found something is there, by its name. -/
private theorem exists_mem_firedRules {v : Violation} {shown : List Violation} (h : v ∈ shown) :
    ∃ rule ∈ firedRules shown, rule.name = v.rule.name := by
  induction shown with
  | nil => exact nomatch h
  | cons w rest ih =>
    rw [firedRules]
    -- the first violation of the name puts its rule there
    by_cases hname : v.rule.name = w.rule.name
    · exact ⟨w.rule, List.mem_cons_self, hname.symm⟩
    · have hne : v ≠ w := by
        rintro rfl
        exact hname rfl
      obtain ⟨rule, hrule, hsame⟩ := ih ((List.mem_cons.1 h).resolve_left hne)
      refine ⟨rule, List.mem_cons_of_mem _ (List.mem_filter.2 ⟨hrule, ?_⟩), hsame⟩
      rw [hsame]
      simpa using hname

/-- A rule is in the index because it found something. -/
theorem mem_indexedRules {rule : Rule} {shown : List Violation} (h : rule ∈ indexedRules shown) :
    ∃ v ∈ shown, v.rule = rule :=
  mem_firedRules ((List.mergeSort_perm _ _).mem_iff.1 h)

/-- Every rule that found something is in the index, by its name. -/
theorem exists_mem_indexedRules {v : Violation} {shown : List Violation} (h : v ∈ shown) :
    ∃ rule ∈ indexedRules shown, rule.name = v.rule.name := by
  obtain ⟨rule, hrule, hname⟩ := exists_mem_firedRules h
  exact ⟨rule, (List.mergeSort_perm _ _).mem_iff.2 hrule, hname⟩

/-- The index is empty only if nothing is shown. -/
private theorem indexedRules_eq_nil_iff (shown : List Violation) : indexedRules shown = [] ↔ shown = [] := by
  rw [indexedRules, ← List.length_eq_zero_iff, List.length_mergeSort, List.length_eq_zero_iff]
  cases shown <;> simp [firedRules]

/-- What is shown was found in some file. -/
theorem mem_shownViolations {maxPriority : Int} {root : Directory} {v : Violation}
    (h : v ∈ shownViolations maxPriority root) : ∃ f ∈ root.allFiles, v ∈ f.violations := by
  obtain ⟨f, hf, hv⟩ := mem_shownViolations_iff.1 h
  exact ⟨f, hf, (mem_visible.1 hv).1⟩

/-- No violation is shown if no file has one up to the priority. -/
private theorem shownViolations_eq_nil_iff (maxPriority : Int) (root : Directory) :
    shownViolations maxPriority root = [] ↔
      root.allFiles.countP (·.hasWithin maxPriority) = 0 := by
  rw [shownViolations, ← List.flatMap_assoc, ← Directory.allFiles, List.flatMap_eq_nil_iff,
    List.countP_eq_zero]
  refine forall₂_congr fun f _ => ?_
  rw [visible_eq_nil_iff, Bool.not_eq_true]

/-- A report can describe the rule: its own description is absent or a text. -/
def IsDescribable (rule : Rule) : Prop :=
  rule.properties.description.isSet = true → ∃ text, rule.properties.description = .text text

/-- Rules without a description of their own can be described. -/
theorem isDescribable_of_not_isSet {tree : Directory}
    (h : ∀ f ∈ tree.allFiles, ∀ v ∈ f.violations, v.rule.properties.description.isSet = false)
    (maxPriority : Int) : ∀ rule ∈ indexedRules (shownViolations maxPriority tree), IsDescribable rule := by
  intro rule hrule hset
  obtain ⟨v, hv, rfl⟩ := mem_indexedRules hrule
  obtain ⟨f, hf, hvf⟩ := mem_shownViolations hv
  rw [h f hf v hvf] at hset
  cases hset

/-- The text for a rule is a text, unless the rule has a description of its own that is none. -/
private theorem describe_toText_iff [Coercion] (bundle : Option Bundle) (rule : Rule) :
    (∃ text, Coercion.toText (Bundle.describe bundle rule.name rule.properties.description) = .ok text) ↔
      IsDescribable rule := by
  simp only [Coercion.toText_eq_ok_iff]
  rw [Bundle.describe, IsDescribable]
  cases hset : rule.properties.description.isSet with
  | false => simp
  | true => simp

/-- What stands in the row of a rule. -/
theorem ruleDescriptionRow_eq_ok_iff [Coercion] {bundle : Option Bundle} {index : Nat} {rule : Rule}
    {row : RuleDescriptionRow} :
    ruleDescriptionRow bundle index rule = .ok row ↔ ∃ priority description,
      Coercion.toInt rule.priority = .ok priority ∧
      Coercion.toText (Bundle.describe bundle rule.name rule.properties.description) = .ok description ∧
      row = ⟨index, rule.name, priority, description⟩ := by
  rw [ruleDescriptionRow]
  cases Coercion.toInt rule.priority with
  | error e => simp
  | ok priority =>
    cases Coercion.toText (Bundle.describe bundle rule.name rule.properties.description) with
    | error e => simp
    | ok description => simp [eq_comm]

/-- The row of a rule with a number for its priority is made if the rule can be described. -/
theorem ruleDescriptionRow_ok_iff [Coercion] {rule : Rule} {priority : Int}
    (h : Coercion.toInt rule.priority = .ok priority) (bundle : Option Bundle) (index : Nat) :
    (∃ row, ruleDescriptionRow bundle index rule = .ok row) ↔ IsDescribable rule := by
  rw [← describe_toText_iff bundle]
  simp [ruleDescriptionRow_eq_ok_iff, h]

/-- Descriptions are made one for each rule, if every one can be made. -/
private theorem describeRules_ok_iff [Coercion] {rules : List Rule}
    (h : ∀ rule ∈ rules, ∃ n, Coercion.toInt rule.priority = .ok n) (bundle : Option Bundle) :
    (∃ rows, describeRules bundle rules = .ok rows) ↔ ∀ rule ∈ rules, IsDescribable rule := by
  rw [describeRules, exists_mapM_eq_ok_iff]
  constructor
  · intro hall rule hrule
    obtain ⟨n, hn⟩ := h rule hrule
    -- every rule is numbered
    rw [← List.zipIdx_map_fst 1 rules] at hrule
    obtain ⟨⟨_, index⟩, hmem, rfl⟩ := List.mem_map.1 hrule
    exact (ruleDescriptionRow_ok_iff hn bundle index).1 (hall _ hmem)
  · rintro hall ⟨rule, index⟩ hmem
    have hrule : rule ∈ rules := List.fst_mem_of_mem_zipIdx hmem
    obtain ⟨n, hn⟩ := h rule hrule
    exact (ruleDescriptionRow_ok_iff hn bundle index).2 (hall rule hrule)

/-- The rows stand for the rules, in order. -/
theorem map_ruleName_describeRules [Coercion] {bundle : Option Bundle} {rules : List Rule}
    {rows : List RuleDescriptionRow} (h : describeRules bundle rules = .ok rows) :
    rows.map (·.ruleName) = rules.map (·.name) := by
  -- a row has the name of its rule
  have hrows : List.Forall₂ (fun (x : Rule × Nat) row => x.1.name = row.ruleName) (rules.zipIdx 1) rows := by
    refine (mapM_eq_ok_iff.1 h).imp fun x row hrow => ?_
    obtain ⟨priority, description, -, -, rfl⟩ := ruleDescriptionRow_eq_ok_iff.1 hrow
    rfl
  have hnames : (rules.zipIdx 1).map (·.1.name) = rows.map (·.ruleName) := by
    rw [← List.forall₂_eq_eq_eq, List.forall₂_map_left_iff, List.forall₂_map_right_iff]
    exact hrows
  have hfst : (rules.zipIdx 1).map (·.1.name) = ((rules.zipIdx 1).map Prod.fst).map (·.name) := by
    rw [List.map_map]
    rfl
  rw [← hnames, hfst, List.zipIdx_map_fst]

/-- There are descriptions if there are rules. -/
private theorem describeRules_eq_nil_iff [Coercion] {bundle : Option Bundle} {rules : List Rule}
    {rows : List RuleDescriptionRow} (h : describeRules bundle rules = .ok rows) :
    rows = [] ↔ rules = [] := by
  have hlength := length_of_mapM_eq_ok h
  rw [List.length_zipIdx] at hlength
  rw [← List.length_eq_zero_iff, hlength, List.length_eq_zero_iff]

/-! ## The printed document -/

/-- What is printed in place of sections if there are none. -/
def noViolations : Block :=
  .panel ⟨"No violations found.", "green", .rounded, "green"⟩

/-- Every other panel that is printed has another style. -/
private theorem noViolations_mem_document_iff (report : Report) :
    noViolations ∈ report.document ↔ report.directorySections = [] := by
  -- it is the style that tells the panels apart
  have hpanel : ∀ text style frame border, style ≠ "green" →
      noViolations ≠ .panel ⟨text, style, frame, border⟩ := by
    intro text style frame border hstyle heq
    rw [noViolations, Block.panel.injEq, Panel.mk.injEq] at heq
    exact hstyle heq.2.1.symm
  have hheading := hpanel report.heading "bold" .rounded "cyan" (by decide)
  have hblank : noViolations ≠ .blank := nofun
  have htable : ∀ table, noViolations ≠ .table table := nofun
  have hblocks : ∀ s, noViolations ∉ directoryBlocks s := by
    intro s hmem
    have hpackage := hpanel s!"Package: {packageLabel s.path}" "bold cyan" .simpleHead "blue" (by decide)
    simp [directoryBlocks, hblank, hpackage, htable, eq_comm (a := Block.table _)] at hmem
  have hdescriptions : noViolations ∉ report.descriptionBlocks := by
    rw [descriptionBlocks]
    split <;> simp [hblank, htable]
  rw [document]
  cases report.directorySections with
  | nil => simp [noViolations]
  | cons s rest => simp [hheading, hblank, htable, hblocks, hdescriptions]

/-! ## Coherent reports -/

/-- The parts of a report up to a priority fit together. The first row of the summary counts what all
    sections show, and every other row what the sections inside its path show; every section but that of
    the root has one row; and with no section there is nothing to count, no rule to describe, and a panel
    that says so. -/
structure IsCoherent (maxPriority : Int) (report : Report) : Prop where
  summary : ∃ all rows, report.summaryRows = all :: rows ∧ all.path = none ∧
    RowAgrees maxPriority all report.directorySections ∧
    (∀ row ∈ rows, ∃ path, row.path = some path ∧
      RowAgrees maxPriority row (report.directorySections.filter (inside path ·.path))) ∧
    (report.directorySections = [] ↔ all.filesWithViolations = 0)
  oneRow : ∀ s ∈ report.directorySections, s.path ≠ "" →
    (report.summaryRows.map (·.path)).count (some s.path) = 1
  descriptions : report.directorySections = [] ↔ report.ruleDescriptions = []
  document : report.directorySections = [] ↔ noViolations ∈ report.document

/-- If all priorities can be compared, it can be told which files have something to show. -/
theorem checkWithin_eq_ok {tree : Directory} (maxPriority : Int)
    (h : ∀ f ∈ tree.allFiles, ∀ v ∈ f.violations, v.isComparable = true) :
    tree.checkWithin maxPriority = .ok () := by
  rw [Directory.checkWithin_eq_ok_iff]
  intro f hf
  rw [FileResults.checkWithin]
  split
  · next v hfind => rw [if_pos (h f hf v (List.mem_of_find?_eq_some hfind))]
  · rfl

/-- There is a report if all files can be shown and all rules can be described, and this goes into it. -/
theorem build_eq_ok_iff [Coercion] {tree : Directory} {maxPriority : Int} {title : Option String}
    {bundle : Option Bundle} {report : Report} (hlow : Rule.minPriority ≤ maxPriority)
    (hhigh : maxPriority ≤ Rule.maxPriority) :
    build (some tree) maxPriority title bundle = .ok report ↔
      (∀ f ∈ tree.allFiles, CanBeShown maxPriority f) ∧
      ∃ rows, describeRules bundle (indexedRules (shownViolations maxPriority tree)) = .ok rows ∧
        report = ⟨title, maxPriority, summarize maxPriority tree,
          sections maxPriority tree.directories, rows⟩ := by
  rw [build]
  simp only [hlow, hhigh, and_self, if_true]
  constructor
  · intro h
    -- step by step: the check, the sections and the descriptions
    obtain ⟨-, -, h⟩ := bind_eq_ok_iff.1 h
    obtain ⟨shown, hsections, h⟩ := bind_eq_ok_iff.1 h
    obtain ⟨rows, hrows, h⟩ := bind_eq_ok_iff.1 h
    have hall := (exists_sectionsOf_eq_ok_iff maxPriority tree).1 ⟨shown, hsections⟩
    rw [sectionsOf_eq hall] at hsections
    obtain rfl := Except.ok.inj hsections
    exact ⟨hall, rows, hrows, (Except.ok.inj h).symm⟩
  · rintro ⟨hall, rows, hrows, rfl⟩
    rw [checkWithin_eq_ok maxPriority fun f hf => (hall f hf).comparable, sectionsOf_eq hall]
    simp only [hrows, bind, Except.bind, pure, Except.pure]

/-- If everything can be shown, the rules in the index have numbers for their priorities. -/
theorem exists_toInt_of_mem_indexedRules [Coercion] {shown : List Violation} (hall : ∀ v ∈ shown, v.IsShowable) :
    ∀ rule ∈ indexedRules shown, ∃ n, Coercion.toInt rule.priority = .ok n := by
  intro rule hrule
  obtain ⟨v, hv, rfl⟩ := mem_indexedRules hrule
  exact hall v hv

/-- When there is a report on a tree. -/
theorem exists_build_eq_ok_iff [Coercion] {maxPriority : Int} (hlow : Rule.minPriority ≤ maxPriority)
    (hhigh : maxPriority ≤ Rule.maxPriority) (tree : Directory) (title : Option String)
    (bundle : Option Bundle) :
    (∃ report, build (some tree) maxPriority title bundle = .ok report) ↔
      (∀ f ∈ tree.allFiles, CanBeShown maxPriority f) ∧
      ∀ rule ∈ indexedRules (shownViolations maxPriority tree), IsDescribable rule := by
  -- if everything can be shown, only descriptions can fail
  have hrules : (∀ f ∈ tree.allFiles, CanBeShown maxPriority f) →
      ((∃ rows, describeRules bundle (indexedRules (shownViolations maxPriority tree)) = .ok rows) ↔
        ∀ rule ∈ indexedRules (shownViolations maxPriority tree), IsDescribable rule) := by
    intro hall
    exact describeRules_ok_iff (exists_toInt_of_mem_indexedRules (isShowable_of_canBeShown hall)) bundle
  simp only [build_eq_ok_iff hlow hhigh]
  constructor
  · rintro ⟨report, hall, rows, hrows, -⟩
    exact ⟨hall, (hrules hall).1 ⟨rows, hrows⟩⟩
  · rintro ⟨hall, hdescribable⟩
    obtain ⟨rows, hrows⟩ := (hrules hall).2 hdescribable
    exact ⟨_, hall, rows, hrows, rfl⟩

/-- Priorities from one to four can be compared and shown. -/
theorem canBeShown_of_ranked [Coercion] {tree : Directory} (hranked : ∀ f ∈ tree.allFiles, IsRankedFile f)
    (maxPriority : Int) : ∀ f ∈ tree.allFiles, CanBeShown maxPriority f := by
  intro f hf
  refine ⟨fun v hv => isComparable_of_isRanked (hranked f hf v hv), fun v hv => ?_⟩
  exact isShowable_of_isRanked (hranked f hf v (mem_visible.1 hv).1)

/-- What goes into a report on a tree with ranked violations. -/
theorem build_eq_ok [Coercion] {tree : Directory} {maxPriority : Int} {title : Option String}
    {bundle : Option Bundle} {report : Report} (hranked : ∀ f ∈ tree.allFiles, IsRankedFile f)
    (hlow : Rule.minPriority ≤ maxPriority) (hhigh : maxPriority ≤ Rule.maxPriority) :
    build (some tree) maxPriority title bundle = .ok report ↔
      ∃ rows, describeRules bundle (indexedRules (shownViolations maxPriority tree)) = .ok rows ∧
        report = ⟨title, maxPriority, summarize maxPriority tree,
          sections maxPriority tree.directories, rows⟩ := by
  rw [build_eq_ok_iff hlow hhigh, and_iff_right (canBeShown_of_ranked hranked maxPriority)]

/-- A report on a well-placed tree is coherent. -/
private theorem isCoherent_of_wellPlaced [Coercion] {tree : Directory} {maxPriority : Int} {title : Option String}
    {bundle : Option Bundle} {rows : List RuleDescriptionRow} (h : tree.WellPlaced)
    (hranked : ∀ f ∈ tree.allFiles, IsRankedFile f) (hhigh : maxPriority ≤ Rule.maxPriority)
    (hrows : describeRules bundle (indexedRules (shownViolations maxPriority tree)) = .ok rows) :
    IsCoherent maxPriority ⟨title, maxPriority, summarize maxPriority tree,
      sections maxPriority tree.directories, rows⟩ where
  summary := by
    have hroot := Directory.self_mem_directories tree
    refine ⟨_, _, summarize_eq maxPriority tree, rfl, ?_, ?_, ?_⟩
    · exact summaryRow_agrees h hranked hroot hhigh none
    · intro row hrow
      obtain ⟨d, hd, rfl⟩ := List.mem_map.1 hrow
      have hdtree := mem_listedDirectories hd
      obtain ⟨path, hpath⟩ := h.exists_path hdtree
      refine ⟨path, hpath, ?_⟩
      show RowAgrees _ _ ((sections maxPriority tree.directories).filter (inside path ·.path))
      -- the directories inside the path are those below the directory
      rw [filter_sections h, ← h.directories_eq_filter hdtree hpath]
      exact summaryRow_agrees h hranked hdtree hhigh d.path
    · show _ ↔ tree.filesWithin maxPriority = 0
      rw [Directory.filesWithin_eq_countP]
      exact sections_eq_nil_iff maxPriority tree.directories
  oneRow := by
    intro s hs hne
    exact count_summary_path h hs hne
  descriptions := by
    show sections maxPriority tree.directories = [] ↔ rows = []
    rw [describeRules_eq_nil_iff hrows, indexedRules_eq_nil_iff, shownViolations_eq_nil_iff]
    exact sections_eq_nil_iff maxPriority tree.directories
  document := (noViolations_mem_document_iff _).symm

/-- For every tree that a run of insertions makes, finalized or not, whose violations all have a priority
    from one to four: the report up to such a priority is coherent, and there is one exactly if the rules
    that it has to describe can be described. -/
theorem build_coherent [Coercion] (run : List Insertion) (maxPriority : Int) (title : Option String)
    (bundle : Option Bundle) (hranked : ∀ f ∈ Insertion.files run, ∀ v ∈ f.violations, v.IsRanked)
    (hlow : Rule.minPriority ≤ maxPriority) (hhigh : maxPriority ≤ Rule.maxPriority) :
    ∃ b, Builder.empty.insertAll run = .ok b ∧ ∀ tree, b.IsTreeOf tree →
      ((∃ report, build (some tree) maxPriority title bundle = .ok report) ↔
        ∀ rule ∈ indexedRules (shownViolations maxPriority tree), IsDescribable rule) ∧
      ∀ report, build (some tree) maxPriority title bundle = .ok report →
        IsCoherent maxPriority report := by
  obtain ⟨b, hrun, hholds⟩ := Builder.holds_empty.insertAll run
  refine ⟨b, hrun, fun tree htree => ?_⟩
  obtain ⟨hplaced, -, hfiles⟩ := hholds.tree htree
  have hranked' : ∀ f ∈ tree.allFiles, IsRankedFile f := fun f hf => hranked f (hfiles.mem_iff.1 hf)
  constructor
  · -- everything can be shown, so all depends on the descriptions
    rw [exists_build_eq_ok_iff hlow hhigh, and_iff_right (canBeShown_of_ranked hranked' maxPriority)]
  · intro report hreport
    obtain ⟨rows, hrows, rfl⟩ := (build_eq_ok hranked' hlow hhigh).1 hreport
    exact isCoherent_of_wellPlaced hplaced hranked' hhigh hrows

/-- A file in a directory with a severe and a mild violation, a clean file at the root, and a directory
    with nothing in it. -/
def mixedRun : List Insertion :=
  [.file ⟨"a/b/C.java", [⟨.booleanMethodReturnsNull, some 7, none, none⟩,
    ⟨.duplicateImport, some 2, none, none⟩]⟩, .file ⟨"D.java", []⟩, .directory "e/"]

/-- The violations of the run come from two rules. -/
private theorem mem_violations_mixedRun {f : FileResults} (hf : f ∈ Insertion.files mixedRun) {v : Violation}
    (hv : v ∈ f.violations) : v.rule = .booleanMethodReturnsNull ∨ v.rule = .duplicateImport := by
  simp only [mixedRun, Insertion.files, Insertion.results?, List.filterMap_cons, List.filterMap_nil,
    List.mem_cons, List.not_mem_nil, or_false] at hf
  rcases hf with rfl | rfl
  · simp only [List.mem_cons, List.not_mem_nil, or_false] at hv
    rcases hv with rfl | rfl
    · exact .inl rfl
    · exact .inr rfl
  · exact absurd hv List.not_mem_nil

/-- There is a coherent report on the run, up to the priority of its severe violation. -/
theorem build_coherent_mixedRun :
    (∀ f ∈ Insertion.files mixedRun, ∀ v ∈ f.violations, v.IsRanked) ∧
      Rule.minPriority ≤ 2 ∧ 2 ≤ Rule.maxPriority ∧
      ∃ b report, Builder.empty.insertAll mixedRun = .ok b ∧
        build (some b.finalize.root) 2 none none = .ok report ∧ IsCoherent 2 report := by
  have hranked : ∀ f ∈ Insertion.files mixedRun, ∀ v ∈ f.violations, v.IsRanked := by
    intro f hf v hv
    rcases mem_violations_mixedRun hf hv with hrule | hrule
    · exact ⟨2, by rw [hrule]; rfl, by decide, by decide⟩
    · exact ⟨3, by rw [hrule]; rfl, by decide, by decide⟩
  refine ⟨hranked, by decide, by decide, ?_⟩
  obtain ⟨b, hrun, hreports⟩ := build_coherent mixedRun 2 none none hranked (by decide) (by decide)
  obtain ⟨hbuilt, hcoherent⟩ := hreports b.finalize.root (.inr rfl)
  -- the rules that are described are among those of the run, which have no description of their own
  have hdescribable : ∀ rule ∈ indexedRules (shownViolations 2 b.finalize.root), IsDescribable rule := by
    have hfiles := ((Builder.holds_of_insertAll hrun).tree (.inr rfl)).2.2
    refine isDescribable_of_not_isSet (fun f hf v hv => ?_) 2
    rcases mem_violations_mixedRun (hfiles.mem_iff.1 hf) hv with hrule | hrule <;> (rw [hrule]; rfl)
  obtain ⟨report, hreport⟩ := hbuilt.2 hdescribable
  exact ⟨b, report, hrun, hreport, hcoherent report hreport⟩

end JavaLint.Report
