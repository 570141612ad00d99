import JavaLint.Proofs.Report.Agreement

/-!
# The index of rules in a report

A report describes every rule that it names in a row, by name and once. Rules may share a name; the one that is
described is then that of the first row under the name, and rows stand in the order of directories, files and
priorities, not in that of detection.

- `find?_of_mem_firedRules`, `pairwise_names_indexedRules`: which rules are described, and in which order
- `Describes`: where the description of a rule comes from
- `IsIndexed`: the index of a report fits its rows
- `build_indexes`: every report is indexed so
-/

namespace JavaLint.Report

/-! ## The rules that found something -/

/-- No two rules in the list have the same name. -/
private theorem nodup_names_firedRules (shown : List Violation) : ((firedRules shown).map (·.name)).Nodup := by
  induction shown with
  | nil => exact List.nodup_nil
  | cons v rest ih =>
    rw [firedRules, List.map_cons, List.nodup_cons]
    constructor
    · intro hmem
      obtain ⟨rule, hrule, hname⟩ := List.mem_map.1 hmem
      -- rules with the name of the first are left out behind it
      have hne : rule.name ≠ v.rule.name := by simpa using (List.mem_filter.1 hrule).2
      exact hne hname
    · exact (List.filter_sublist.map _).nodup ih

/-- A rule is there for the first violation under its name. -/
theorem find?_of_mem_firedRules {rule : Rule} {shown : List Violation} (h : rule ∈ firedRules shown) :
    ∃ v, shown.find? (·.rule.name == rule.name) = some v ∧ v.rule = rule := by
  induction shown with
  | nil => exact nomatch h
  | cons v rest ih =>
    rw [firedRules, List.mem_cons] at h
    rcases h with rfl | h
    · exact ⟨v, List.find?_cons_of_pos (beq_self_eq_true _), rfl⟩
    · obtain ⟨hrule, hname⟩ := List.mem_filter.1 h
      -- the rules behind the first have other names, so the search goes past it
      have hne : (v.rule.name == rule.name) = false := by
        rw [beq_eq_false_iff_ne]
        exact Ne.symm (by simpa using hname)
      simp only [List.find?_cons, hne]
      exact ih hrule

/-- A rule is in the index for the first violation under its name. -/
private theorem find?_of_mem_indexedRules {rule : Rule} {shown : List Violation} (h : rule ∈ indexedRules shown) :
    ∃ v, shown.find? (·.rule.name == rule.name) = some v ∧ v.rule = rule :=
  find?_of_mem_firedRules ((List.mergeSort_perm _ _).mem_iff.1 h)

/-- The index is sorted by name, and no name comes twice. -/
theorem pairwise_names_indexedRules (shown : List Violation) :
    ((indexedRules shown).map (·.name)).Pairwise (· < ·) := by
  -- names are sorted, and they differ
  have hsorted : ((indexedRules shown).map (·.name)).Pairwise (· ≤ ·) := by
    rw [List.pairwise_map]
    refine (List.pairwise_mergeSort ?_ ?_ (firedRules shown)).imp fun h => of_decide_eq_true h
    · intro a b c hab hbc
      simp only [decide_eq_true_eq] at hab hbc ⊢
      exact String.le_trans hab hbc
    · intro a b
      simp only [Bool.or_eq_true, decide_eq_true_eq]
      exact String.le_total _ _
  have hnodup : ((indexedRules shown).map (·.name)).Nodup :=
    ((List.mergeSort_perm _ _).map _).nodup_iff.2 (nodup_names_firedRules shown)
  refine (hsorted.and hnodup).imp ?_
  rintro a b ⟨hle, hne⟩
  rw [← String.not_le]
  intro hge
  exact hne (String.le_antisymm hle hge)

/-! ## Their descriptions -/

/-- The text describes the rule. It is the rule's own description unless that is empty or otherwise not set, then
    the text that the bundle has for the name unless that is empty, and then a sentence with the name. -/
inductive Describes (bundle : Option Bundle) (rule : Rule) : String → Prop where
  | explicit {text : String} (htext : rule.properties.description = .text text) (hne : text ≠ "") :
    Describes bundle rule text
  | bundled {text : String} (hunset : rule.properties.description.isSet = false)
    (htext : (bundle.getD .shipped).lookup rule.name = some text) (hne : text ≠ "") :
    Describes bundle rule text
  | generic (hunset : rule.properties.description.isSet = false)
    (hnone : ∀ text, (bundle.getD .shipped).lookup rule.name = some text → text = "") :
    Describes bundle rule ("No description provided for rule named [" ++ rule.name ++ "]")

/-- The text that a row shows describes its rule. -/
private theorem describes_of_toText [Coercion] {bundle : Option Bundle} {rule : Rule} {description : String}
    (h : Coercion.toText (Bundle.describe bundle rule.name rule.properties.description) = .ok description) :
    Describes bundle rule description := by
  rw [Coercion.toText_eq_ok_iff, Bundle.describe] at h
  -- the rule has a description of its own, or the bundle is asked
  split at h
  · next hset =>
    rw [h] at hset
    exact .explicit h (by simpa [Setting.isSet] using hset)
  · next hunset =>
    rw [Bool.not_eq_true] at hunset
    obtain rfl := Setting.text.inj h
    unfold Bundle.find?
    cases hlookup : (bundle.getD .shipped).lookup rule.name with
    | none => exact .generic hunset (by simp [hlookup])
    | some text =>
      -- an empty text in the bundle counts as none
      by_cases hempty : text = ""
      · rw [hempty]
        exact .generic hunset (by simp [hlookup, hempty])
      · have hkept : (some text).filter (!·.isEmpty) = some text := by simp [hempty]
        rw [hkept]
        exact .bundled hunset hlookup hempty

/-- The entry of the index is about the rule. -/
structure RuleDescriptionRow.IsFor [Coercion] (bundle : Option Bundle) (rule : Rule)
    (entry : RuleDescriptionRow) : Prop where
  ruleName : entry.ruleName = rule.name
  priority : Coercion.toInt rule.priority = .ok entry.priority
  description : Describes bundle rule entry.description

section Entries

variable {bundle : Option Bundle} {rules : List Rule} {entries : List RuleDescriptionRow}

/-- Entries are numbered from one. -/
private theorem map_index_describeRules [Coercion] (h : describeRules bundle rules = .ok entries) :
    entries.map (·.index) = List.range' 1 entries.length := by
  -- an entry keeps the index that its rule was numbered with
  have hentries : List.Forall₂ (fun (x : Rule × Nat) entry => x.2 = entry.index) (rules.zipIdx 1) entries := by
    refine (mapM_eq_ok_iff.1 h).imp fun x entry hentry => ?_
    obtain ⟨priority, description, -, -, rfl⟩ := ruleDescriptionRow_eq_ok_iff.1 hentry
    rfl
  have hindexes : (rules.zipIdx 1).map Prod.snd = entries.map (·.index) := by
    rw [← List.forall₂_eq_eq_eq, List.forall₂_map_left_iff, List.forall₂_map_right_iff]
    exact hentries
  rw [← hindexes, List.zipIdx_map_snd, ← hentries.length_eq, List.length_zipIdx]

/-- Each entry is that of one of the rules. -/
private theorem exists_isFor_of_describeRules [Coercion] (h : describeRules bundle rules = .ok entries)
    {entry : RuleDescriptionRow} (hentry : entry ∈ entries) : ∃ rule ∈ rules, entry.IsFor bundle rule := by
  obtain ⟨⟨rule, index⟩, hmem, hrow⟩ := exists_mem_of_mapM_eq_ok h hentry
  obtain ⟨priority, description, hpriority, hdescription, rfl⟩ := ruleDescriptionRow_eq_ok_iff.1 hrow
  exact ⟨rule, List.fst_mem_of_mem_zipIdx hmem, rfl, hpriority, describes_of_toText hdescription⟩

end Entries

/-! ## Reports -/

/-- The index of a report fits its rows, which are those of the violations that are shown. Names are in strictly
    increasing order, indexes count from one, and the names are those in the rows. What an entry says is taken from
    the rule of the first violation under its name, which is the one in the first row under it. -/
structure IsIndexed [Coercion] (bundle : Option Bundle) (shown : List Violation) (report : Report) : Prop where
  rows : List.Forall₂ (fun v row => violationRow v = .ok row) shown (rowsIn report.directorySections)
  sorted : (report.ruleDescriptions.map (·.ruleName)).Pairwise (· < ·)
  numbered : report.ruleDescriptions.map (·.index) = List.range' 1 report.ruleDescriptions.length
  names : ∀ name, name ∈ report.ruleDescriptions.map (·.ruleName) ↔
    name ∈ (rowsIn report.directorySections).map (·.ruleName)
  first : ∀ entry ∈ report.ruleDescriptions, ∃ v row,
    shown.find? (·.rule.name == entry.ruleName) = some v ∧
    (rowsIn report.directorySections).find? (·.ruleName == entry.ruleName) = some row ∧
    violationRow v = .ok row ∧ entry.IsFor bundle v.rule

/-- The rows are those of the violations that are shown. -/
private theorem rowsIn_sections_eq_map (maxPriority : Int) (tree : Directory) :
    rowsIn (sections maxPriority tree.directories) = (shownViolations maxPriority tree).map rowOf := by
  rw [rowsIn_sections, shownViolations, List.map_flatMap, List.flatMap_assoc]
  simp only [List.map_flatMap]

/-- Every violation that is shown has its row. -/
private theorem violationRow_of_mem_shownViolations [Coercion] {tree : Directory} {maxPriority : Int}
    (hall : ∀ v ∈ shownViolations maxPriority tree, v.IsShowable) {v : Violation}
    (hv : v ∈ shownViolations maxPriority tree) : violationRow v = .ok (rowOf v) := by
  obtain ⟨f, -, hvisible⟩ := mem_shownViolations_iff.1 hv
  exact violationRow_eq (hall v hv) (mem_visible.1 hvisible).2

/-- The index of what is shown fits the rows. -/
private theorem isIndexed_of_describeRules [Coercion] {tree : Directory} {maxPriority : Int} {title : Option String}
    {bundle : Option Bundle} {entries : List RuleDescriptionRow}
    (hall : ∀ v ∈ shownViolations maxPriority tree, v.IsShowable)
    (hentries : describeRules bundle (indexedRules (shownViolations maxPriority tree)) = .ok entries) :
    IsIndexed bundle (shownViolations maxPriority tree) ⟨title, maxPriority, summarize maxPriority tree,
      sections maxPriority tree.directories, entries⟩ where
  rows := by
    rw [rowsIn_sections_eq_map, List.forall₂_map_right_iff, List.forall₂_same]
    intro v hv
    exact violationRow_of_mem_shownViolations hall hv
  sorted := by
    rw [map_ruleName_describeRules hentries]
    exact pairwise_names_indexedRules _
  numbered := map_index_describeRules hentries
  names := by
    intro name
    rw [map_ruleName_describeRules hentries, rowsIn_sections_eq_map, List.map_map, List.mem_map, List.mem_map]
    -- what is named in a row was found by some rule, and the other way round
    constructor
    · rintro ⟨rule, hrule, rfl⟩
      obtain ⟨v, hv, rfl⟩ := mem_indexedRules hrule
      exact ⟨v, hv, rfl⟩
    · rintro ⟨v, hv, rfl⟩
      exact exists_mem_indexedRules hv
  first := by
    intro entry hentry
    obtain ⟨rule, hrule, hfor⟩ := exists_isFor_of_describeRules hentries hentry
    obtain ⟨v, hfind, rfl⟩ := find?_of_mem_indexedRules hrule
    rw [← hfor.ruleName] at hfind
    refine ⟨v, rowOf v, hfind, ?_, ?_, hfor⟩
    · -- a row has the name of its rule, so looking for a name finds the same place among rows and violations
      rw [rowsIn_sections_eq_map, List.find?_map]
      exact congrArg (Option.map rowOf) hfind
    · exact violationRow_of_mem_shownViolations hall (List.mem_of_find?_eq_some hfind)

/-- For every tree, every priority from one to four and every bundle or none, the index of the report fits its rows.
    There is a report exactly if all priorities can be compared, the violations that it has to show can be shown and
    the rules that it has to describe can be described. -/
theorem build_indexes [Coercion] (tree : Directory) (maxPriority : Int) (hlow : Rule.minPriority ≤ maxPriority)
    (hhigh : maxPriority ≤ Rule.maxPriority) (title : Option String) (bundle : Option Bundle) :
    ((∃ report, build (some tree) maxPriority title bundle = .ok report) ↔
      (∀ f ∈ tree.allFiles, CanBeShown maxPriority f) ∧
      ∀ rule ∈ indexedRules (shownViolations maxPriority tree), IsDescribable rule) ∧
    ∀ report, build (some tree) maxPriority title bundle = .ok report →
      report.IsIndexed bundle (shownViolations maxPriority tree) := by
  refine ⟨exists_build_eq_ok_iff hlow hhigh tree title bundle, ?_⟩
  intro report hreport
  obtain ⟨hall, entries, hentries, rfl⟩ := (build_eq_ok_iff hlow hhigh).1 hreport
  exact isIndexed_of_describeRules (isShowable_of_canBeShown hall) hentries

/-- A severe rule with the name of a shipped one and a description of its own. -/
def severeImport : Rule :=
  ⟨"ImportRule", "DuplicateImport", .duplicateImport,
    { priority := .int 1, description := .text "Import it once." }⟩

/-- A file in which a mild rule found something first, and then a severe one with the same name. It is the severe
    one that is described, as its violation is shown first. -/
def sharedNameTree : Directory :=
  ⟨some "", 1, true, [.inl ⟨"A.java", [⟨.duplicateImport, some 2, none, none⟩,
    ⟨severeImport, some 5, none, none⟩]⟩]⟩

/-- The violations of the file come from the two rules. -/
private theorem rule_of_mem_sharedNameTree {f : FileResults} (hf : f ∈ sharedNameTree.allFiles) {v : Violation}
    (hvf : v ∈ f.violations) : v.rule = .duplicateImport ∨ v.rule = severeImport := by
  simp only [sharedNameTree, Directory.allFiles, Directory.directories, Directory.directoriesIn,
    Directory.files, List.flatMap_cons, List.flatMap_nil, List.filterMap_cons, Sum.getLeft?_inl,
    List.filterMap_nil, List.append_nil, List.mem_singleton] at hf
  rw [hf] at hvf
  simp only [List.mem_cons, List.not_mem_nil, or_false] at hvf
  rcases hvf with rfl | rfl
  · exact .inl rfl
  · exact .inr rfl

/-- There is a report on two rules that share their name. -/
theorem build_indexes_sharedNameTree :
    Rule.minPriority ≤ 3 ∧ 3 ≤ Rule.maxPriority ∧
      ∃ report, build (some sharedNameTree) 3 none none = .ok report ∧
        report.IsIndexed none (shownViolations 3 sharedNameTree) := by
  obtain ⟨hexists, hindexed⟩ := build_indexes sharedNameTree 3 (by decide) (by decide) none none
  -- the priorities are three and one, and the only description is a text
  have hbuilt : ∃ report, build (some sharedNameTree) 3 none none = .ok report := by
    refine hexists.2 ⟨canBeShown_of_ranked ?_ 3, ?_⟩
    · intro f hf v hv
      rcases rule_of_mem_sharedNameTree hf hv with hrule | hrule
      · exact ⟨3, by rw [hrule]; rfl, by decide, by decide⟩
      · exact ⟨1, by rw [hrule]; rfl, by decide, by decide⟩
    · intro rule hrule hset
      obtain ⟨v, hv, rfl⟩ := mem_indexedRules hrule
      obtain ⟨f, hf, hvf⟩ := mem_shownViolations hv
      rcases rule_of_mem_sharedNameTree hf hvf with hrule | hrule
      · rw [hrule] at hset
        exact nomatch hset
      · exact ⟨_, by rw [hrule]; rfl⟩
  obtain ⟨report, hreport⟩ := hbuilt
  exact ⟨by decide, by decide, report, hreport, hindexed report hreport⟩

end JavaLint.Report
