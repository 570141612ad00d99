import JavaLint.Proofs.Report.Agreement

/-!
# Reports up to different priorities

The limit of a report is a filter on what is shown. A report up to a priority is the report up to a milder
one with the milder rows taken away, then the files without rows, and then the directories without files.
Nothing is assumed of the tree: priorities may be any settings, as long as both reports exist.

- `mergeSort_cons_eq`, `filter_mergeSort`: filtering before and after sorting is the same
- `visible_eq_filter`, `shownViolations_eq_filter`: what is shown up to the more severe priority
- `sections_eq_filterMap`: the sections, with `FileSection.upTo` and `DirectorySection.upTo`
- `indexedRules_filter`, `describeRules_filter`: the index of rules, if a name stands for one rule
- `build_isRestriction`: the report up to the more severe priority is a restriction of the other
-/

namespace JavaLint

/-! ## Priorities within both limits -/

/-- What is at most one number is at most a greater one. -/
private theorem Binary64.atMost_mono {x : Binary64} {low high : Int} (hle : low ≤ high)
    (h : x.atMost low = true) : x.atMost high = true := by
  cases x with
  | nan => exact h
  | infinite negative => exact h
  | finite negative mantissa exponent =>
    simp only [atMost, decide_eq_true_eq] at h ⊢
    -- both limits are scaled by the same factor
    have hscale : low * (Nat.pow 2 (-exponent).toNat : Nat) ≤ high * (Nat.pow 2 (-exponent).toNat : Nat) :=
      Int.mul_le_mul_of_nonneg_right hle (Int.natCast_nonneg _)
    omega

/-- The same for any setting. -/
private theorem Setting.atMost_mono {s : Setting} {low high : Int} (hle : low ≤ high)
    (h : s.atMost low = true) : s.atMost high = true := by
  cases s with
  | bool value =>
    simp only [atMost, decide_eq_true_eq] at h ⊢
    omega
  | int value =>
    simp only [atMost, decide_eq_true_eq] at h ⊢
    omega
  | float value => exact Binary64.atMost_mono hle h
  | null => exact h
  | text value => exact h
  | list items => exact h
  | table entries => exact h

/-- A file with a violation up to one priority has one up to a milder one. -/
private theorem FileResults.hasWithin_mono {f : FileResults} {low high : Int} (hle : low ≤ high)
    (h : f.hasWithin low = true) : f.hasWithin high = true := by
  unfold hasWithin at h ⊢
  rw [List.any_eq_true] at h ⊢
  obtain ⟨v, hv, hwithin⟩ := h
  exact ⟨v, hv, Setting.atMost_mono hle hwithin⟩

namespace Report

/-- A violation that is shown up to one priority is within another if its sort key is. -/
private theorem isWithin_of_isShowable [Coercion] {v : Violation} {high : Int} (h : v.IsShowable)
    (hwithin : v.isWithin high = true) (low : Int) : v.isWithin low = decide (sortKey v ≤ low) := by
  obtain ⟨n, hn⟩ := h
  have hnumber := Coercion.number?_of_atMost hn hwithin
  rw [sortKey, hnumber]
  exact Setting.atMost_of_number? hnumber low

/-- A file that can be shown up to one priority can be shown up to a more severe one. -/
private theorem CanBeShown.of_le [Coercion] {f : FileResults} {low high : Int} (h : CanBeShown high f)
    (hle : low ≤ high) : CanBeShown low f := by
  refine ⟨h.comparable, fun v hv => h.showable v ?_⟩
  obtain ⟨hmem, hwithin⟩ := mem_visible.1 hv
  exact mem_visible.2 ⟨hmem, Setting.atMost_mono hle hwithin⟩

/-! ## Filtering and sorting -/

section Sorting

variable {α : Type} {le : α → α → Bool} (htrans : ∀ a b c, le a b = true → le b c = true → le a c = true)
  (htotal : ∀ a b, (le a b || le b a) = true)

include htrans htotal

/-- Sorting puts an element into the sorted rest before all that it may stand before. -/
theorem mergeSort_cons_eq (a : α) (l : List α) :
    (a :: l).mergeSort le = (l.mergeSort le).filter (!le a ·) ++ a :: (l.mergeSort le).filter (le a) ∧
      (l.mergeSort le).filter (!le a ·) ++ (l.mergeSort le).filter (le a) = l.mergeSort le := by
  obtain ⟨before, after, hsort, hrest, hbefore⟩ := List.mergeSort_cons htrans htotal a l
  -- what stands behind the element may do so
  have hafter : ∀ b ∈ after, le a b = true := by
    have hsorted := List.pairwise_mergeSort htrans htotal (a :: l)
    rw [hsort, List.pairwise_append, List.pairwise_cons] at hsorted
    exact hsorted.2.1.1
  have hfirst : (l.mergeSort le).filter (!le a ·) = before := by
    have hnone : after.filter (!le a ·) = [] := by
      rw [List.filter_eq_nil_iff]
      intro b hb
      simp [hafter b hb]
    rw [hrest, List.filter_append, List.filter_eq_self.2 hbefore, hnone, List.append_nil]
  have hsecond : (l.mergeSort le).filter (le a) = after := by
    have hnone : before.filter (le a) = [] := by
      rw [List.filter_eq_nil_iff]
      intro b hb
      simpa using hbefore b hb
    rw [hrest, List.filter_append, List.filter_eq_self.2 hafter, hnone, List.nil_append]
  rw [hfirst, hsecond]
  exact ⟨hsort, hrest.symm⟩

/-- Filtering before and after sorting is the same. The order may rank different elements alike, so it is not
    enough that both sides are sorted and have the same elements. -/
theorem filter_mergeSort (p : α → Bool) (l : List α) :
    (l.mergeSort le).filter p = (l.filter p).mergeSort le := by
  induction l with
  | nil => simp
  | cons a rest ih =>
    obtain ⟨hsort, hparts⟩ := mergeSort_cons_eq htrans htotal a rest
    -- an element that is kept is put into what is kept of the rest
    by_cases hp : p a = true
    · rw [hsort, List.filter_append, List.filter_cons_of_pos hp, List.filter_cons_of_pos hp,
        (mergeSort_cons_eq htrans htotal a (rest.filter p)).1, ← ih, List.filter_comm p,
        List.filter_comm p]
    · rw [hsort, List.filter_append, List.filter_cons_of_neg hp, List.filter_cons_of_neg hp,
        ← List.filter_append, hparts, ih]

end Sorting

/-- What is shown of a file up to the more severe priority. -/
theorem visible_eq_filter {low high : Int} (hle : low ≤ high) (f : FileResults) :
    visible low f = (visible high f).filter (·.isWithin low) := by
  unfold visible
  rw [filter_mergeSort]
  · congr 1
    rw [List.filter_filter]
    apply List.filter_congr
    intro v _
    -- what is within the more severe priority is within the other
    cases hlow : v.isWithin low with
    | false => rfl
    | true => simp [show v.isWithin high = true from Setting.atMost_mono hle hlow]
  · intro a b c hab hbc
    simp only [decide_eq_true_eq] at hab hbc ⊢
    omega
  · intro a b
    simp only [Bool.or_eq_true, decide_eq_true_eq]
    omega

/-- What is shown of a tree up to the more severe priority. -/
theorem shownViolations_eq_filter {low high : Int} (hle : low ≤ high) (tree : Directory) :
    shownViolations low tree = (shownViolations high tree).filter (·.isWithin low) := by
  simp only [shownViolations, List.filter_flatMap]
  apply List.flatMap_congr
  intro d _
  apply List.flatMap_congr
  intro f _
  exact visible_eq_filter hle f

/-! ## Sections -/

/-- The section with the rows up to a priority, if there are any. -/
def FileSection.upTo (maxPriority : Int) (s : FileSection) : Option FileSection :=
  match s.rows.filter (·.priority ≤ maxPriority) with
  | [] => none
  | rows => some { s with rows }

/-- The section with the files that have rows up to a priority, if there are any. -/
def DirectorySection.upTo (maxPriority : Int) (s : DirectorySection) : Option DirectorySection :=
  match s.files.filterMap (FileSection.upTo maxPriority) with
  | [] => none
  | files => some { s with files }

/-- The rows of a file up to the more severe priority. -/
private theorem map_rowOf_visible [Coercion] {low high : Int} (hle : low ≤ high) {f : FileResults}
    (h : ∀ v ∈ visible high f, v.IsShowable) :
    (visible low f).map rowOf = ((visible high f).map rowOf).filter (·.priority ≤ low) := by
  rw [visible_eq_filter hle, List.filter_map]
  congr 1
  apply List.filter_congr
  intro v hv
  exact isWithin_of_isShowable (h v hv) (mem_visible.1 hv).2 low

/-- The section of a file up to the more severe priority is what is left of the other. -/
private theorem fileSectionOf_eq_bind [Coercion] {low high : Int} (hle : low ≤ high) {f : FileResults}
    (h : ∀ v ∈ visible high f, v.IsShowable) (directory : Option String) :
    fileSectionOf low directory f = (fileSectionOf high directory f).bind (FileSection.upTo low) := by
  unfold fileSectionOf
  cases hhigh : f.hasWithin high with
  | false =>
    -- nothing up to the milder priority, and so nothing up to the other
    have hlow : f.hasWithin low = false := by
      by_contra hwithin
      rw [FileResults.hasWithin_mono hle (Bool.not_eq_false _ ▸ hwithin)] at hhigh
      cases hhigh
    simp [hlow]
  | true =>
    simp only [if_true, Option.bind_some, FileSection.upTo, ← map_rowOf_visible hle h]
    cases hlow : f.hasWithin low with
    | false =>
      rw [visible_eq_nil_iff.2 hlow]
      rfl
    | true =>
      -- some row is left, so the section is
      have hne : (visible low f).map rowOf ≠ [] := by
        intro hnil
        rw [List.map_eq_nil_iff, visible_eq_nil_iff, hlow] at hnil
        cases hnil
      rw [if_pos rfl]
      split
      · next hnil => exact absurd hnil hne
      · rfl

/-- The section of a directory up to the more severe priority is what is left of the other. -/
private theorem directorySectionOf_eq_bind [Coercion] {low high : Int} (hle : low ≤ high) {d : Directory}
    (h : ∀ f ∈ d.files, ∀ v ∈ visible high f, v.IsShowable) :
    directorySectionOf low d = (directorySectionOf high d).bind (DirectorySection.upTo low) := by
  -- file by file
  have hfiles : d.files.filterMap (fileSectionOf low d.path) =
      (d.files.filterMap (fileSectionOf high d.path)).filterMap (FileSection.upTo low) := by
    rw [List.filterMap_filterMap]
    apply List.filterMap_congr
    intro f hf
    exact fileSectionOf_eq_bind hle (h f hf) d.path
  unfold directorySectionOf
  rw [hfiles]
  cases d.files.filterMap (fileSectionOf high d.path) with
  | nil => rfl
  | cons s rest =>
    show _ = DirectorySection.upTo low ⟨d.path.getD "", s :: rest⟩
    unfold DirectorySection.upTo
    cases (s :: rest).filterMap (FileSection.upTo low) <;> rfl

/-- The sections up to the more severe priority are what is left of the others. -/
theorem sections_eq_filterMap [Coercion] {low high : Int} (hle : low ≤ high) {tree : Directory}
    (h : ∀ v ∈ shownViolations high tree, v.IsShowable) :
    sections low tree.directories =
      (sections high tree.directories).filterMap (DirectorySection.upTo low) := by
  unfold sections
  rw [List.filterMap_filterMap]
  apply List.filterMap_congr
  intro d hd
  apply directorySectionOf_eq_bind hle
  intro f hf v hv
  exact h v (mem_shownViolations_iff.2 ⟨f, List.mem_flatMap.2 ⟨d, hd, hf⟩, hv⟩)

/-! ## The summary -/

/-- The row counts the same files as the other one, but violations only up to a priority. -/
structure SummaryRow.IsRestriction (maxPriority : Int) (row row' : SummaryRow) : Prop where
  path : row.path = row'.path
  totalFiles : row.totalFiles = row'.totalFiles
  filesWithViolations : row.filesWithViolations ≤ row'.filesWithViolations
  priorityCounts : row.priorityCounts = row'.priorityCounts.filter (·.1 ≤ maxPriority)

/-- The priorities up to the more severe one. -/
private theorem prioritiesUpTo_eq_filter {low high : Int} (hle : low ≤ high) :
    prioritiesUpTo low = (prioritiesUpTo high).filter (· ≤ low) := by
  unfold prioritiesUpTo
  rw [List.filter_filter]
  apply List.filter_congr
  intro priority _
  rw [Bool.eq_iff_iff]
  simp only [Bool.and_eq_true, decide_eq_true_eq]
  omega

/-- A row of the summary counts the same files, and violations up to the more severe priority. -/
private theorem summaryRow_isRestriction {low high : Int} (hle : low ≤ high) (path : Option String)
    (d : Directory) : (summaryRow low path d).IsRestriction low (summaryRow high path d) where
  path := rfl
  totalFiles := rfl
  filesWithViolations := by
    simp only [summaryRow, Directory.filesWithin_eq_countP]
    exact List.countP_mono_left fun f _ => FileResults.hasWithin_mono hle
  priorityCounts := by
    simp only [summaryRow, prioritiesUpTo_eq_filter hle, List.filter_map]
    rfl

/-- The summary has the same rows, restricted. -/
private theorem summarize_isRestriction {low high : Int} (hle : low ≤ high) (tree : Directory) :
    List.Forall₂ (SummaryRow.IsRestriction low) (summarize low tree) (summarize high tree) := by
  rw [summarize_eq, summarize_eq]
  apply List.Forall₂.cons (summaryRow_isRestriction hle none tree)
  rw [List.forall₂_map_left_iff, List.forall₂_map_right_iff, List.forall₂_same]
  intro d _
  exact summaryRow_isRestriction hle d.path d

/-! ## The index of rules -/

/-- Violations of rules with the same name have the same rule. -/
def HasOneRulePerName (violations : List Violation) : Prop :=
  ∀ v ∈ violations, ∀ w ∈ violations, v.rule.name = w.rule.name → v.rule = w.rule

/-- Leaving out violations by their rules leaves out the rules, if a name stands for one rule. -/
private theorem firedRules_filter {shown : List Violation} (h : HasOneRulePerName shown) (p : Rule → Bool) :
    firedRules (shown.filter (p ·.rule)) = (firedRules shown).filter p := by
  induction shown with
  | nil => rfl
  | cons v rest ih =>
    have hrest : HasOneRulePerName rest := fun a ha b hb =>
      h a (List.mem_cons_of_mem v ha) b (List.mem_cons_of_mem v hb)
    rw [firedRules]
    by_cases hp : p v.rule = true
    · simp only [List.filter_cons, hp, if_true, firedRules, ih hrest]
      rw [List.filter_comm]
    · simp only [List.filter_cons, hp, if_false, Bool.false_eq_true, ih hrest, List.filter_filter]
      -- a later rule with the name of the one left out is left out as well
      apply List.filter_congr
      intro rule hrule
      obtain ⟨w, hw, rfl⟩ := mem_firedRules hrule
      cases hpw : p w.rule with
      | false => rfl
      | true =>
        have hname : w.rule.name ≠ v.rule.name := by
          intro hsame
          rw [h w (List.mem_cons_of_mem v hw) v List.mem_cons_self hsame] at hpw
          exact hp hpw
        simp [hname]

/-- Leaving out violations by their rules leaves out the rules in the index. -/
theorem indexedRules_filter {shown : List Violation} (h : HasOneRulePerName shown) (p : Rule → Bool) :
    indexedRules (shown.filter (p ·.rule)) = (indexedRules shown).filter p := by
  unfold indexedRules
  rw [firedRules_filter h, filter_mergeSort]
  · intro a b c hab hbc
    simp only [decide_eq_true_eq] at hab hbc ⊢
    exact String.le_trans hab hbc
  · intro a b
    simp only [Bool.or_eq_true, decide_eq_true_eq]
    exact String.le_total _ _

/-- The rows numbered from the given number on. -/
def renumber (start : Nat) (rows : List RuleDescriptionRow) : List RuleDescriptionRow :=
  (rows.zipIdx start).map fun (row, index) => { row with index }

/-- The row of a rule is the same under another number. -/
private theorem ruleDescriptionRow_of_eq_ok [Coercion] {bundle : Option Bundle} {index : Nat} {rule : Rule}
    {row : RuleDescriptionRow} (h : ruleDescriptionRow bundle index rule = .ok row) (number : Nat) :
    ruleDescriptionRow bundle number rule = .ok { row with index := number } := by
  obtain ⟨priority, description, hpriority, hdescription, rfl⟩ := ruleDescriptionRow_eq_ok_iff.1 h
  exact ruleDescriptionRow_eq_ok_iff.2 ⟨priority, description, hpriority, hdescription, rfl⟩

/-- Rules that are left out by their priorities leave their rows out, and the rows that are left are
    numbered anew. -/
private theorem forall₂_ruleDescriptionRow_filter [Coercion] {bundle : Option Bundle} {maxPriority : Int}
    {p : Rule → Bool} {rules : List Rule} {rows : List RuleDescriptionRow} {start : Nat}
    (hp : ∀ rule ∈ rules, ∀ n, Coercion.toInt rule.priority = .ok n → p rule = decide (n ≤ maxPriority))
    (h : List.Forall₂ (fun x row => ruleDescriptionRow bundle x.2 x.1 = .ok row) (rules.zipIdx start) rows)
    (number : Nat) :
    List.Forall₂ (fun x row => ruleDescriptionRow bundle x.2 x.1 = .ok row)
      ((rules.filter p).zipIdx number) (renumber number (rows.filter (·.priority ≤ maxPriority))) := by
  -- the numbers before and after run apart as soon as a rule is left out
  induction rules generalizing rows start number with
  | nil =>
    obtain rfl := List.forall₂_nil_left_iff.1 h
    exact .nil
  | cons rule rest ih =>
    obtain ⟨hrule, hrest⟩ := List.forall_mem_cons.1 hp
    rw [List.zipIdx_cons, List.forall₂_cons_left_iff] at h
    obtain ⟨row, others, hrow, hothers, rfl⟩ := h
    have hpriority : p rule = decide (row.priority ≤ maxPriority) := by
      obtain ⟨n, description, hn, -, rfl⟩ := ruleDescriptionRow_eq_ok_iff.1 hrow
      exact hrule n hn
    rw [List.filter_cons, List.filter_cons, hpriority]
    split
    · exact .cons (ruleDescriptionRow_of_eq_ok hrow number) (ih hrest hothers (number + 1))
    · exact ih hrest hothers number

/-- The descriptions up to the more severe priority, if a name stands for one rule. -/
theorem describeRules_filter [Coercion] {low high : Int} (hle : low ≤ high) {tree : Directory}
    (hnames : HasOneRulePerName (shownViolations high tree)) {bundle : Option Bundle}
    {rows : List RuleDescriptionRow}
    (h : describeRules bundle (indexedRules (shownViolations high tree)) = .ok rows) :
    describeRules bundle (indexedRules (shownViolations low tree)) =
      .ok (renumber 1 (rows.filter (·.priority ≤ low))) := by
  -- the rules that are left are those within the priority
  have hrules : indexedRules (shownViolations low tree) =
      (indexedRules (shownViolations high tree)).filter (·.priority.atMost low) := by
    rw [shownViolations_eq_filter hle]
    exact indexedRules_filter hnames (·.priority.atMost low)
  rw [describeRules, mapM_eq_ok_iff] at h ⊢
  rw [hrules]
  apply forall₂_ruleDescriptionRow_filter _ h
  intro rule hrule n hn
  -- the priority of a rule in the index is the number that it shows
  obtain ⟨v, hv, rfl⟩ := mem_indexedRules hrule
  obtain ⟨f, hf, hvf⟩ := mem_shownViolations_iff.1 hv
  exact Setting.atMost_of_number? (Coercion.number?_of_atMost hn (mem_visible.1 hvf).2) low

/-! ## Reports -/

/-- The report is the other one restricted to a priority: the sections are what is left of the sections
    there, and the summary has the same rows with the counts up to the priority. -/
structure IsRestriction (maxPriority : Int) (report report' : Report) : Prop where
  title : report.title = report'.title
  summaryRows : List.Forall₂ (SummaryRow.IsRestriction maxPriority) report.summaryRows report'.summaryRows
  directorySections : report.directorySections =
    report'.directorySections.filterMap (DirectorySection.upTo maxPriority)

/-- For every tree and two priorities, the report up to the more severe one is a restriction of the report
    up to the milder one. If a name stands for one rule in what is shown, there is such a report whenever
    there is one up to the milder priority, and it describes the rules that are within the priority. There
    is a report exactly if all priorities can be compared, what is within the priority can be shown and all
    rules can be described. -/
theorem build_isRestriction [Coercion] (tree : Directory) (low high : Int) (hmin : Rule.minPriority ≤ low)
    (hle : low ≤ high) (hmax : high ≤ Rule.maxPriority) (title : Option String) (bundle : Option Bundle) :
    (∀ maxPriority, Rule.minPriority ≤ maxPriority → maxPriority ≤ Rule.maxPriority →
      ((∃ report, build (some tree) maxPriority title bundle = .ok report) ↔
        (∀ f ∈ tree.allFiles, CanBeShown maxPriority f) ∧
        ∀ rule ∈ indexedRules (shownViolations maxPriority tree), IsDescribable rule)) ∧
    ∀ report', build (some tree) high title bundle = .ok report' →
      (∀ report, build (some tree) low title bundle = .ok report → report.IsRestriction low report') ∧
      (HasOneRulePerName (shownViolations high tree) →
        ∃ report, build (some tree) low title bundle = .ok report ∧
          report.ruleDescriptions = renumber 1 (report'.ruleDescriptions.filter (·.priority ≤ low))) := by
  refine ⟨fun maxPriority hlow hhigh => exists_build_eq_ok_iff hlow hhigh tree title bundle, ?_⟩
  intro report' hreport'
  obtain ⟨hfiles, rows', hrows', rfl⟩ := (build_eq_ok_iff (Int.le_trans hmin hle) hmax).1 hreport'
  have hall := isShowable_of_canBeShown hfiles
  constructor
  · intro report hreport
    obtain ⟨-, rows, -, rfl⟩ := (build_eq_ok_iff hmin (Int.le_trans hle hmax)).1 hreport
    exact ⟨rfl, summarize_isRestriction hle tree, sections_eq_filterMap hle hall⟩
  · intro hnames
    -- the rules that are left can be described, as they could before
    have hrows := describeRules_filter hle hnames hrows'
    exact ⟨_, (build_eq_ok_iff hmin (Int.le_trans hle hmax)).2
      ⟨fun f hf => (hfiles f hf).of_le hle, _, hrows, rfl⟩, rfl⟩

/-- A file with a severe violation between two mild ones. -/
def interleavedTree : Directory :=
  ⟨some "", 1, true, [.inl ⟨"A.java", [⟨.duplicateImport, some 9, none, none⟩,
    ⟨.booleanMethodReturnsNull, some 7, none, none⟩, ⟨.duplicateImport, some 2, none, none⟩]⟩]⟩

/-- The violations of the tree come from two rules. -/
private theorem rule_of_mem_interleavedTree {f : FileResults} (hf : f ∈ interleavedTree.allFiles) {v : Violation}
    (hvf : v ∈ f.violations) : v.rule = .booleanMethodReturnsNull ∨ v.rule = .duplicateImport := by
  simp only [interleavedTree, Directory.allFiles, Directory.directories, Directory.directoriesIn,
    Directory.files, List.flatMap_cons, List.flatMap_nil, List.filterMap_cons, Sum.getLeft?_inl,
    List.filterMap_nil, List.append_nil, List.mem_singleton] at hf
  rw [hf] at hvf
  simp only [List.mem_cons, List.not_mem_nil, or_false] at hvf
  rcases hvf with rfl | rfl | rfl
  · exact .inr rfl
  · exact .inl rfl
  · exact .inr rfl

/-- Both reports on the tree exist, and one is a restriction of the other. -/
theorem build_isRestriction_interleavedTree :
    Rule.minPriority ≤ 2 ∧ (2 : Int) ≤ 3 ∧ 3 ≤ Rule.maxPriority ∧
      HasOneRulePerName (shownViolations 3 interleavedTree) ∧
      ∃ report report', build (some interleavedTree) 2 none none = .ok report ∧
        build (some interleavedTree) 3 none none = .ok report' ∧ report.IsRestriction 2 report' ∧
        report.ruleDescriptions = renumber 1 (report'.ruleDescriptions.filter (·.priority ≤ 2)) := by
  obtain ⟨hexists, hreports⟩ :=
    build_isRestriction interleavedTree 2 3 (by decide) (by decide) (by decide) none none
  -- the two rules have different names
  have hnames : HasOneRulePerName (shownViolations 3 interleavedTree) := by
    intro v hv w hw hname
    obtain ⟨f, hf, hvf⟩ := mem_shownViolations hv
    obtain ⟨f', hf', hwf⟩ := mem_shownViolations hw
    rcases rule_of_mem_interleavedTree hf hvf with hrule | hrule <;>
      rcases rule_of_mem_interleavedTree hf' hwf with hrule' | hrule' <;> rw [hrule, hrule'] at hname ⊢
    · exact absurd hname (by decide)
    · exact absurd hname (by decide)
  have hmild : ∃ report', build (some interleavedTree) 3 none none = .ok report' := by
    refine (hexists 3 (by decide) (by decide)).2 ⟨canBeShown_of_ranked ?_ 3, ?_⟩
    · intro f hf v hv
      rcases rule_of_mem_interleavedTree hf hv with hrule | hrule
      · exact ⟨2, by rw [hrule]; rfl, by decide, by decide⟩
      · exact ⟨3, by rw [hrule]; rfl, by decide, by decide⟩
    · refine isDescribable_of_not_isSet (fun f hf v hv => ?_) 3
      rcases rule_of_mem_interleavedTree hf hv with hrule | hrule <;> (rw [hrule]; rfl)
  obtain ⟨report', hreport'⟩ := hmild
  obtain ⟨hrestriction, hdescribed⟩ := hreports report' hreport'
  obtain ⟨report, hreport, hrows⟩ := hdescribed hnames
  exact ⟨by decide, by decide, by decide, hnames, report, report', hreport, hreport',
    hrestriction report hreport, hrows⟩

end Report

end JavaLint
