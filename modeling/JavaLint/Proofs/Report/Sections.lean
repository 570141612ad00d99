import JavaLint.Proofs.Outcome
import JavaLint.Proofs.Results.Entries
import JavaLint.Report.Document

/-!
# Sections of a report

A violation can be shown if its priority can be coerced to an integer, as that of every violation can that is
ranked from one to four. If everything that a report has to show can be shown, every row and every section of
it can be made, so the sections are given by plain functions, and what they show can be counted file by file.

- `Violation.IsRanked`, `Violation.IsShowable`: the priority is a number from one to four, or any integer
- `sectionsOf_eq`: the sections of a tree, without the possibility of an error
- `exists_sectionsOf_eq_ok_iff`: the sections can be made only if everything can be shown
- `countP_rowsIn_sections`, `length_fileSectionsIn_sections`: how many rows and how many files they show
-/

namespace JavaLint

/-! ## Priorities as numbers -/

/-- A whole number is at most `m` if the integer that it is equal to is. -/
private theorem Binary64.atMost_of_toInt? {x : Binary64} {n : Int} (h : x.toInt? = some n) (m : Int) :
    x.atMost m = decide (n ≤ m) := by
  cases x with
  | nan => exact nomatch h
  | infinite negative => exact nomatch h
  | finite negative mantissa exponent =>
    simp only [toInt?] at h
    split at h
    · rename_i hdvd
      -- with the fraction gone, both sides differ by the positive factor `2 ^ (-exponent)`
      obtain ⟨k, rfl⟩ := Nat.dvd_of_mod_eq_zero (beq_iff_eq.1 hdvd)
      have hpos : 0 < Nat.pow 2 (-exponent).toNat := Nat.pow_pos (by omega)
      have hposInt : (0 : Int) < (Nat.pow 2 (-exponent).toNat : Nat) := by exact_mod_cast hpos
      rw [Nat.mul_div_cancel_left k hpos] at h
      obtain rfl := Option.some.inj h
      -- the value with its fraction gone
      have hscale : Nat.pow 2 (-exponent).toNat * k * Nat.pow 2 exponent.toNat =
          k * Nat.pow 2 exponent.toNat * Nat.pow 2 (-exponent).toNat := by
        rw [Nat.mul_assoc, Nat.mul_comm]
      simp only [atMost, hscale, Int.natCast_mul _ (Nat.pow 2 (-exponent).toNat), ← Int.neg_mul,
        ← ite_mul, decide_eq_decide]
      exact Int.mul_le_mul_right hposInt
    · exact nomatch h

/-- A number is at most `m` if the integer that it is equal to is. -/
theorem Setting.atMost_of_number? {s : Setting} {n : Int} (h : s.number? = some n) (m : Int) :
    s.atMost m = decide (n ≤ m) := by
  cases s with
  | bool value =>
    obtain rfl := Option.some.inj h
    rfl
  | int value =>
    obtain rfl := Option.some.inj h
    rfl
  | float value => exact Binary64.atMost_of_toInt? h m
  | null => exact nomatch h
  | text value => exact nomatch h
  | list items => exact nomatch h
  | table entries => exact nomatch h

/-- Only a number is at most something. -/
private theorem Setting.isNumber_of_atMost {s : Setting} {m : Int} (h : s.atMost m = true) : s.isNumber = true := by
  cases s with
  | bool _ | int _ | float _ => rfl
  | null | text _ | list _ | table _ => cases h

/-- What is at most something and is coerced to an integer is equal to it. -/
theorem Coercion.number?_of_atMost [Coercion] {s : Setting} {n m : Int} (h : toInt s = .ok n)
    (hm : s.atMost m = true) : s.number? = some n :=
  number?_of_toInt h (Setting.isNumber_of_atMost hm)

/-- The priority of the violation is a number from one to four. -/
def Violation.IsRanked (v : Violation) : Prop :=
  ∃ n, v.rule.priority.number? = some n ∧ Rule.minPriority ≤ n ∧ n ≤ Rule.maxPriority

/-- The priority of the violation can be coerced to an integer. -/
def Violation.IsShowable [Coercion] (v : Violation) : Prop :=
  ∃ n, Coercion.toInt v.rule.priority = .ok n

namespace Report

/-- A ranked violation is sorted by its priority. -/
theorem number?_eq_sortKey {v : Violation} (h : v.IsRanked) :
    v.rule.priority.number? = some (sortKey v) := by
  obtain ⟨n, hn, -⟩ := h
  rw [sortKey, hn]
  rfl

/-- The priority of a ranked violation is its sort key. -/
theorem hasPriority_eq {v : Violation} (h : v.IsRanked) (priority : Int) :
    v.hasPriority priority = (sortKey v == priority) := by
  rw [Violation.hasPriority, number?_eq_sortKey h]
  rfl

/-- A ranked violation is within a priority if its own is at most that. -/
theorem isWithin_eq {v : Violation} (h : v.IsRanked) (maxPriority : Int) :
    v.isWithin maxPriority = decide (sortKey v ≤ maxPriority) :=
  Setting.atMost_of_number? (number?_eq_sortKey h) maxPriority

/-- A ranked priority is small enough to be coerced to the number that it is. -/
theorem toInt_priority [Coercion] {v : Violation} (h : v.IsRanked) :
    Coercion.toInt v.rule.priority = .ok (sortKey v) := by
  have hkey := number?_eq_sortKey h
  obtain ⟨n, hn, hlow, hhigh⟩ := h
  rw [hn] at hkey
  rw [← Option.some.inj hkey]
  simp only [Rule.minPriority, Rule.maxPriority] at hlow hhigh
  -- every coercion keeps a number that is this small
  refine Coercion.toInt_of_number? hn ?_ ?_ <;> simp only [Setting.wordBound] <;> omega

/-- What is ranked can be shown. -/
theorem isShowable_of_isRanked [Coercion] {v : Violation} (h : v.IsRanked) : v.IsShowable :=
  ⟨sortKey v, toInt_priority h⟩

/-- What is ranked can be compared. -/
theorem isComparable_of_isRanked {v : Violation} (h : v.IsRanked) : v.isComparable = true := by
  obtain ⟨n, hn, -⟩ := h
  rw [Violation.isComparable]
  -- only what is a number is equal to one
  cases hpriority : v.rule.priority with
  | bool _ | int _ | float _ => rfl
  | null | text _ | list _ | table _ =>
    rw [hpriority] at hn
    cases hn

/-- A violation that is within some priority and can be shown is shown with its sort key. -/
private theorem toInt_eq_sortKey [Coercion] {v : Violation} {maxPriority : Int} (h : v.IsShowable)
    (hwithin : v.isWithin maxPriority = true) : Coercion.toInt v.rule.priority = .ok (sortKey v) := by
  obtain ⟨n, hn⟩ := h
  rw [sortKey, Coercion.number?_of_atMost hn hwithin]
  exact hn

/-! ## Rows and sections without errors -/

/-- The row of a violation that can be shown. -/
def rowOf (v : Violation) : ViolationRow :=
  ⟨v.rule.name, sortKey v, v.line, formatSourceLine v.sourceLine 0, v.message⟩

/-- The row of a violation that can be shown is made. -/
theorem violationRow_eq [Coercion] {v : Violation} {maxPriority : Int} (h : v.IsShowable)
    (hwithin : v.isWithin maxPriority = true) : violationRow v = .ok (rowOf v) := by
  rw [violationRow, toInt_eq_sortKey h hwithin]
  rfl

/-- A row can be made only of a violation that can be shown. -/
private theorem exists_violationRow_eq_ok_iff [Coercion] (v : Violation) :
    (∃ row, violationRow v = .ok row) ↔ v.IsShowable := by
  rw [violationRow, Violation.IsShowable]
  cases Coercion.toInt v.rule.priority <;> simp

/-- All violations of the file are ranked. -/
def IsRankedFile (f : FileResults) : Prop :=
  ∀ v ∈ f.violations, v.IsRanked

/-- A report shows the violations of a file up to a priority, in an order of its own. -/
private theorem visible_perm (maxPriority : Int) (f : FileResults) :
    (visible maxPriority f).Perm (f.violations.filter (·.isWithin maxPriority)) :=
  List.mergeSort_perm _ _

/-- What is shown of a file are its violations up to the priority. -/
theorem mem_visible {maxPriority : Int} {f : FileResults} {v : Violation} :
    v ∈ visible maxPriority f ↔ v ∈ f.violations ∧ v.isWithin maxPriority = true := by
  rw [(visible_perm maxPriority f).mem_iff, List.mem_filter]

/-- Nothing of a file is shown if it has no violation up to the priority. -/
theorem visible_eq_nil_iff {maxPriority : Int} {f : FileResults} :
    visible maxPriority f = [] ↔ f.hasWithin maxPriority = false := by
  rw [List.eq_nil_iff_forall_not_mem, FileResults.hasWithin, List.any_eq_false]
  simp only [mem_visible, not_and]

/-- The section of a file whose violations can be shown. -/
def fileSectionOf (maxPriority : Int) (directory : Option String) (f : FileResults) :
    Option FileSection :=
  if f.hasWithin maxPriority then
    some ⟨f.path, displayName directory f.path, (visible maxPriority f).map rowOf⟩
  else none

/-- All priorities of the file can be compared, and the violations up to the given priority can be shown. -/
structure CanBeShown [Coercion] (maxPriority : Int) (f : FileResults) : Prop where
  comparable : ∀ v ∈ f.violations, v.isComparable = true
  showable : ∀ v ∈ visible maxPriority f, v.IsShowable

/-- No violation is found that cannot be compared. -/
private theorem find?_not_isComparable_eq_none_iff {f : FileResults} :
    f.violations.find? (!·.isComparable) = none ↔ ∀ v ∈ f.violations, v.isComparable = true := by
  simp only [List.find?_eq_none, Bool.not_eq_true', Bool.not_eq_false]

/-- The section of a file that can be shown is made. -/
private theorem fileSection_eq [Coercion] {f : FileResults} {maxPriority : Int} (h : CanBeShown maxPriority f)
    (directory : Option String) :
    fileSection maxPriority directory f = .ok (fileSectionOf maxPriority directory f) := by
  -- every row is made
  have hrows : (visible maxPriority f).mapM violationRow = .ok ((visible maxPriority f).map rowOf) :=
    mapM_eq_ok fun v hv => violationRow_eq (h.showable v hv) (mem_visible.1 hv).2
  rw [fileSection, find?_not_isComparable_eq_none_iff.2 h.comparable, fileSectionOf]
  dsimp only
  split
  · rename_i hnil
    rw [visible_eq_nil_iff.1 hnil]
    rfl
  · rename_i hne
    -- something is shown, so there is a section
    have hwithin : f.hasWithin maxPriority = true := by
      cases hw : f.hasWithin maxPriority with
      | true => rfl
      | false => exact absurd (visible_eq_nil_iff.2 hw) hne
    rw [hrows, hwithin]
    rfl

/-- A section can be made only of a file that can be shown. -/
private theorem exists_fileSection_eq_ok_iff [Coercion] (maxPriority : Int) (directory : Option String)
    (f : FileResults) :
    (∃ s, fileSection maxPriority directory f = .ok s) ↔ CanBeShown maxPriority f := by
  constructor
  · rintro ⟨s, h⟩
    rw [fileSection] at h
    split at h
    · cases h
    · next hfind =>
      refine ⟨find?_not_isComparable_eq_none_iff.1 hfind, ?_⟩
      split at h
      · next hnil =>
        rw [hnil]
        simp
      · -- the rows were made, so each of them was
        obtain ⟨rows, hrows, -⟩ := bind_eq_ok_iff.1 h
        intro v hv
        exact (exists_violationRow_eq_ok_iff v).1 (exists_mapM_eq_ok_iff.1 ⟨rows, hrows⟩ v hv)
  · intro h
    exact ⟨_, fileSection_eq h directory⟩

/-- The section of a directory whose violations can be shown. -/
def directorySectionOf (maxPriority : Int) (d : Directory) : Option DirectorySection :=
  match d.files.filterMap (fileSectionOf maxPriority d.path) with
  | [] => none
  | shown => some ⟨d.path.getD "", shown⟩

/-- The section of a directory is made if all its files can be shown. -/
private theorem directorySection_eq [Coercion] {d : Directory} {maxPriority : Int}
    (h : ∀ f ∈ d.files, CanBeShown maxPriority f) :
    directorySection maxPriority d = .ok (directorySectionOf maxPriority d) := by
  -- the sections of all files are made, and the empty ones are left out
  have hfiles : d.files.mapM (fileSection maxPriority d.path) =
      .ok (d.files.map (fileSectionOf maxPriority d.path)) :=
    mapM_eq_ok fun f hf => fileSection_eq (h f hf) d.path
  rw [directorySection, hfiles, directorySectionOf]
  show (match (d.files.map (fileSectionOf maxPriority d.path)).filterMap id with
    | [] => Except.ok none
    | shown => Except.ok (some (DirectorySection.mk (d.path.getD "") shown))) = _
  rw [List.filterMap_map, Function.id_comp]
  split <;> rfl

/-- The section of a directory can be made only if all its files can be shown. -/
private theorem exists_directorySection_eq_ok_iff [Coercion] (maxPriority : Int) (d : Directory) :
    (∃ s, directorySection maxPriority d = .ok s) ↔ ∀ f ∈ d.files, CanBeShown maxPriority f := by
  constructor
  · rintro ⟨s, hs⟩
    -- a section is made of those of the files, so each of them was made
    have hfiles : ∃ files, d.files.mapM (fileSection maxPriority d.path) = .ok files := by
      cases hmap : d.files.mapM (fileSection maxPriority d.path) with
      | error e => simp [directorySection, hmap, bind, Except.bind] at hs
      | ok files => exact ⟨files, rfl⟩
    intro f hf
    exact (exists_fileSection_eq_ok_iff maxPriority d.path f).1 (exists_mapM_eq_ok_iff.1 hfiles f hf)
  · intro h
    exact ⟨_, directorySection_eq h⟩

/-- The sections that a report shows of some directories. -/
def sections (maxPriority : Int) (directories : List Directory) : List DirectorySection :=
  directories.filterMap (directorySectionOf maxPriority)

/-- What is shown of a tree is what is shown of its files. -/
theorem mem_shownViolations_iff {maxPriority : Int} {root : Directory} {v : Violation} :
    v ∈ shownViolations maxPriority root ↔ ∃ f ∈ root.allFiles, v ∈ visible maxPriority f := by
  rw [shownViolations, ← List.flatMap_assoc, ← Directory.allFiles, List.mem_flatMap]

/-- What is shown of files that can be shown can be shown. -/
theorem isShowable_of_canBeShown [Coercion] {root : Directory} {maxPriority : Int}
    (h : ∀ f ∈ root.allFiles, CanBeShown maxPriority f) :
    ∀ v ∈ shownViolations maxPriority root, v.IsShowable := by
  intro v hv
  obtain ⟨f, hf, hvf⟩ := mem_shownViolations_iff.1 hv
  exact (h f hf).showable v hvf

/-- The sections of a tree whose files can be shown. -/
theorem sectionsOf_eq [Coercion] {root : Directory} {maxPriority : Int}
    (h : ∀ f ∈ root.allFiles, CanBeShown maxPriority f) :
    sectionsOf maxPriority root = .ok (sections maxPriority root.directories) := by
  -- directory by directory
  have hdirectories : root.directories.mapM (directorySection maxPriority) =
      .ok (root.directories.map (directorySectionOf maxPriority)) :=
    mapM_eq_ok fun d hd => directorySection_eq fun f hf => h f (List.mem_flatMap.2 ⟨d, hd, hf⟩)
  rw [sectionsOf, hdirectories]
  show Except.ok ((root.directories.map (directorySectionOf maxPriority)).filterMap id) = _
  rw [List.filterMap_map, Function.id_comp]
  rfl

/-- The sections of a tree can be made only if its files can be shown. -/
theorem exists_sectionsOf_eq_ok_iff [Coercion] (maxPriority : Int) (root : Directory) :
    (∃ shown, sectionsOf maxPriority root = .ok shown) ↔ ∀ f ∈ root.allFiles, CanBeShown maxPriority f := by
  constructor
  · rintro ⟨shown, hshown⟩ f hf
    -- the sections were made, so that of each directory was
    have hdirectories : ∃ made, root.directories.mapM (directorySection maxPriority) = .ok made := by
      cases hmap : root.directories.mapM (directorySection maxPriority) with
      | error e => simp [sectionsOf, hmap, bind, Except.bind] at hshown
      | ok made => exact ⟨made, rfl⟩
    obtain ⟨d, hd, hfd⟩ := List.mem_flatMap.1 hf
    exact (exists_directorySection_eq_ok_iff maxPriority d).1
      (exists_mapM_eq_ok_iff.1 hdirectories d hd) f hfd
  · intro h
    exact ⟨_, sectionsOf_eq h⟩

/-! ## What the sections show -/

/-- The files that some sections show. -/
def fileSectionsIn (shown : List DirectorySection) : List FileSection :=
  shown.flatMap (·.files)

/-- The violations that some sections show. -/
def rowsIn (shown : List DirectorySection) : List ViolationRow :=
  (fileSectionsIn shown).flatMap (·.rows)

/-- The section of a directory has the sections of its files, and there is one if there are any. -/
private theorem files_directorySectionOf (maxPriority : Int) (d : Directory) :
    (directorySectionOf maxPriority d).toList.flatMap (·.files) =
      d.files.filterMap (fileSectionOf maxPriority d.path) := by
  rw [directorySectionOf]
  split
  · rename_i hnil
    rw [hnil]
    rfl
  · simp

/-- The files shown of some directories, one after another. -/
theorem fileSectionsIn_sections (maxPriority : Int) (directories : List Directory) :
    fileSectionsIn (sections maxPriority directories) =
      directories.flatMap fun d => d.files.filterMap (fileSectionOf maxPriority d.path) := by
  rw [fileSectionsIn, sections]
  induction directories with
  | nil => rfl
  | cons d rest ih =>
    rw [List.flatMap_cons, ← ih, ← files_directorySectionOf, List.filterMap_cons]
    cases directorySectionOf maxPriority d <;> simp

/-- As many files are shown as have a violation up to the priority. -/
theorem length_fileSectionsIn_sections (maxPriority : Int) (directories : List Directory) :
    (fileSectionsIn (sections maxPriority directories)).length =
      (directories.flatMap Directory.files).countP (·.hasWithin maxPriority) := by
  rw [fileSectionsIn_sections, List.length_flatMap, List.countP_flatMap]
  refine congrArg List.sum (List.map_congr_left fun d _ => ?_)
  rw [List.length_filterMap_eq_countP]
  refine List.countP_congr fun f _ => ?_
  rw [fileSectionOf]
  cases f.hasWithin maxPriority <;> simp

/-- The violations shown of some directories, file by file. -/
theorem rowsIn_sections (maxPriority : Int) (directories : List Directory) :
    rowsIn (sections maxPriority directories) =
      (directories.flatMap Directory.files).flatMap fun f => (visible maxPriority f).map rowOf := by
  -- a file without a section has no rows either
  have hfile : ∀ (directory : Option String) (files : List FileResults),
      (files.filterMap (fileSectionOf maxPriority directory)).flatMap (·.rows) =
        files.flatMap fun f => (visible maxPriority f).map rowOf := by
    intro directory files
    induction files with
    | nil => rfl
    | cons f rest ih =>
      rw [List.flatMap_cons, ← ih, List.filterMap_cons, fileSectionOf]
      cases hw : f.hasWithin maxPriority with
      | true => simp
      | false => simp [visible_eq_nil_iff.2 hw]
  rw [rowsIn, fileSectionsIn_sections, List.flatMap_assoc, List.flatMap_assoc]
  exact List.flatMap_congr fun d _ => hfile d.path d.files

/-- As many violations of a priority are shown of a file as it has, if the priority is within the limit. -/
private theorem countP_rows_visible {f : FileResults} (h : IsRankedFile f) {priority maxPriority : Int}
    (hle : priority ≤ maxPriority) :
    ((visible maxPriority f).map rowOf).countP (·.priority == priority) = f.countWith priority := by
  rw [List.countP_map, (visible_perm maxPriority f).countP_eq, List.countP_filter, FileResults.countWith]
  -- a violation of this priority is within the limit, so none is left out
  refine List.countP_congr fun v hv => ?_
  rw [hasPriority_eq (h v hv), isWithin_eq (h v hv)]
  simp only [Function.comp_apply, rowOf, Bool.and_eq_true, beq_iff_eq, decide_eq_true_eq]
  omega

/-- As many violations of a priority are shown as the files of the directories have. -/
theorem countP_rowsIn_sections {directories : List Directory}
    (h : ∀ f ∈ directories.flatMap Directory.files, IsRankedFile f) {priority maxPriority : Int}
    (hle : priority ≤ maxPriority) :
    (rowsIn (sections maxPriority directories)).countP (·.priority == priority) =
      ((directories.flatMap Directory.files).map (·.countWith priority)).sum := by
  rw [rowsIn_sections, List.countP_flatMap]
  exact congrArg List.sum (List.map_congr_left fun f hf => countP_rows_visible (h f hf) hle)

end Report

end JavaLint
