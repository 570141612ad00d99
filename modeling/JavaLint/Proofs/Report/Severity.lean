import JavaLint.Proofs.Report.Thresholds
import JavaLint.Proofs.Text.Parts

/-!
# The sections of a report, from the most severe violations down

A report sorts what it shows of a file by priority and keeps the order of detection among equals. Where priorities
are from one to four, this is the same as going through the violations of the file once for each priority. The
sections are those of the files that have something to show, directory by directory, and in a tree that a builder
makes a file is named by what its path adds to that of its directory.

- `mergeSort_eq_flatMap`: sorting by a key lists the elements of each key, one key after another
- `visible_eq_flatMap`, `rowsByPriority`: what is shown of a file
- `listing`, `sections_eq_listing`: the sections of a tree
- `displayName_of_parentPath`, `FileSection.IsNamedIn`: the names of files
- `build_lists`: every report on a tree with ranked violations
-/

namespace JavaLint.Report

/-! ## Sorting by a key -/

section Keys

variable {α : Type} {key : α → Int}

/-- In a sorted list the elements with the least key come first. -/
private theorem filter_append_filter_of_sorted {l : List α} {least : Int} (hsorted : l.Pairwise (key · ≤ key ·))
    (hleast : ∀ a ∈ l, least ≤ key a) :
    l.filter (key · == least) ++ l.filter (key · != least) = l := by
  induction l with
  | nil => rfl
  | cons a rest ih =>
    obtain ⟨ha, hrest⟩ := List.pairwise_cons.1 hsorted
    obtain ⟨hle, hleast⟩ := List.forall_mem_cons.1 hleast
    by_cases heq : key a = least
    · simpa [List.filter_cons, heq] using ih hrest hleast
    · -- the first element has a greater key, and so have all others
      have hgreater : ∀ b ∈ a :: rest, key b ≠ least := by
        intro b hb
        rcases List.mem_cons.1 hb with rfl | hb
        · exact heq
        · have := ha b hb
          omega
      rw [List.filter_eq_nil_iff.2 (by simpa using hgreater), List.filter_eq_self.2 (by simpa using hgreater),
        List.nil_append]

/-- A sorted list is made up of the elements of each key, one key after another. -/
private theorem eq_flatMap_of_sorted {l : List α} {keys : List Int} (hsorted : l.Pairwise (key · ≤ key ·))
    (hkeys : keys.Pairwise (· < ·)) (hmem : ∀ a ∈ l, key a ∈ keys) :
    l = keys.flatMap fun k => l.filter (key · == k) := by
  induction keys generalizing l with
  | nil =>
    have hnil : l = [] := List.eq_nil_iff_forall_not_mem.2 fun a ha => List.not_mem_nil (hmem a ha)
    simpa using hnil
  | cons least rest ih =>
    obtain ⟨hless, hrest⟩ := List.pairwise_cons.1 hkeys
    have hleast : ∀ a ∈ l, least ≤ key a := by
      intro a ha
      rcases List.mem_cons.1 (hmem a ha) with heq | hin
      · exact heq.ge
      · exact (hless _ hin).le
    have hothers : ∀ a ∈ l.filter (key · != least), key a ∈ rest := by
      intro a ha
      obtain ⟨ha, hne⟩ := List.mem_filter.1 ha
      exact (List.mem_cons.1 (hmem a ha)).resolve_left (by simpa using hne)
    -- leaving out the least key does not change what the other keys have
    have hclass : ∀ k ∈ rest, (l.filter (key · != least)).filter (key · == k) = l.filter (key · == k) := by
      intro k hk
      rw [List.filter_filter]
      apply List.filter_congr
      intro a _
      have := hless k hk
      rw [Bool.eq_iff_iff]
      simp only [Bool.and_eq_true, beq_iff_eq, bne_iff_ne]
      omega
    calc l = l.filter (key · == least) ++ l.filter (key · != least) :=
          (filter_append_filter_of_sorted hsorted hleast).symm
      _ = l.filter (key · == least) ++ rest.flatMap fun k => (l.filter (key · != least)).filter (key · == k) := by
          rw [← ih (hsorted.filter _) hrest hothers]
      _ = (least :: rest).flatMap fun k => l.filter (key · == k) := by
          rw [List.flatMap_cons, List.flatMap_congr hclass]

/-- Sorting by a key lists the elements of each key in their order, one key after another. -/
theorem mergeSort_eq_flatMap {l : List α} {keys : List Int} (hkeys : keys.Pairwise (· < ·))
    (hmem : ∀ a ∈ l, key a ∈ keys) :
    (l.mergeSort fun a b => key a ≤ key b) = keys.flatMap fun k => l.filter (key · == k) := by
  have htrans : ∀ a b c : α, decide (key a ≤ key b) = true → decide (key b ≤ key c) = true →
      decide (key a ≤ key c) = true := by
    intro a b c hab hbc
    simp only [decide_eq_true_eq] at hab hbc ⊢
    omega
  have htotal : ∀ a b : α, (decide (key a ≤ key b) || decide (key b ≤ key a)) = true := by
    intro a b
    simp only [Bool.or_eq_true, decide_eq_true_eq]
    omega
  -- the list is sorted, so it is made up of its keys
  have hsorted : (l.mergeSort fun a b => key a ≤ key b).Pairwise (key · ≤ key ·) := by
    simpa using List.pairwise_mergeSort htrans htotal l
  rw [eq_flatMap_of_sorted hsorted hkeys fun a ha => hmem a (List.mem_mergeSort.1 ha)]
  apply List.flatMap_congr
  intro k _
  -- elements with the same key are sorted already
  rw [filter_mergeSort htrans htotal, List.mergeSort_of_pairwise]
  apply List.pairwise_of_forall_mem_list
  intro a ha b hb
  have hka : key a = k := by simpa using (List.mem_filter.1 ha).2
  have hkb : key b = k := by simpa using (List.mem_filter.1 hb).2
  simp [hka, hkb]

end Keys

/-! ## What is shown of a file -/

/-- The priorities up to a limit are in increasing order. -/
private theorem pairwise_prioritiesUpTo (maxPriority : Int) : (prioritiesUpTo maxPriority).Pairwise (· < ·) :=
  List.Pairwise.filter _ (by decide)

/-- A report shows the violations of a file priority by priority, each time in the order of detection. -/
theorem visible_eq_flatMap {f : FileResults} (h : IsRankedFile f) {maxPriority : Int}
    (hhigh : maxPriority ≤ Rule.maxPriority) :
    visible maxPriority f =
      (prioritiesUpTo maxPriority).flatMap fun priority => f.violations.filter (·.hasPriority priority) := by
  -- what is shown has one of the priorities up to the limit
  have hmem : ∀ v ∈ f.violations.filter (·.isWithin maxPriority), sortKey v ∈ prioritiesUpTo maxPriority := by
    intro v hv
    obtain ⟨hv, hwithin⟩ := List.mem_filter.1 hv
    rw [isWithin_eq (h v hv), decide_eq_true_eq] at hwithin
    obtain ⟨n, hn, hlow, -⟩ := h v hv
    rw [number?_eq_sortKey (h v hv)] at hn
    rw [← Option.some.inj hn] at hlow
    exact mem_prioritiesUpTo hlow hwithin hhigh
  rw [visible, mergeSort_eq_flatMap (pairwise_prioritiesUpTo maxPriority) hmem]
  apply List.flatMap_congr
  intro priority hpriority
  -- within the limit it makes no difference that the milder ones are left out first
  have hle : priority ≤ maxPriority := by simpa using (List.mem_filter.1 hpriority).2
  rw [List.filter_filter]
  apply List.filter_congr
  intro v hv
  rw [hasPriority_eq (h v hv), isWithin_eq (h v hv), Bool.eq_iff_iff]
  simp only [Bool.and_eq_true, beq_iff_eq, decide_eq_true_eq]
  omega

/-- The row of a violation with this priority. -/
def rowWith (priority : Int) (v : Violation) : ViolationRow :=
  ⟨v.rule.name, priority, v.line, formatSourceLine v.sourceLine 0, v.message⟩

/-- The rows of the violations with priority one as they were detected, then those with priority two, and so on. -/
def rowsByPriority (maxPriority : Int) (f : FileResults) : List ViolationRow :=
  (prioritiesUpTo maxPriority).flatMap fun priority =>
    (f.violations.filter (·.hasPriority priority)).map (rowWith priority)

/-- The rows of a file are those of its violations by priority. -/
private theorem map_rowOf_visible_eq {f : FileResults} (h : IsRankedFile f) {maxPriority : Int}
    (hhigh : maxPriority ≤ Rule.maxPriority) :
    (visible maxPriority f).map rowOf = rowsByPriority maxPriority f := by
  rw [visible_eq_flatMap h hhigh, List.map_flatMap, rowsByPriority]
  apply List.flatMap_congr
  intro priority _
  apply List.map_congr_left
  intro v hv
  obtain ⟨hv, hpriority⟩ := List.mem_filter.1 hv
  rw [hasPriority_eq (h v hv), beq_iff_eq] at hpriority
  rw [rowOf, rowWith, hpriority]

/-! ## The sections of a tree -/

/-- The section of a file with its violations by priority. -/
def listedFile (maxPriority : Int) (directory : Option String) (f : FileResults) : FileSection :=
  ⟨f.path, displayName directory f.path, rowsByPriority maxPriority f⟩

/-- The section of a directory with the files that have a violation up to the priority, as they were added. -/
def listedDirectory (maxPriority : Int) (d : Directory) : DirectorySection :=
  ⟨d.path.getD "", (d.files.filter (·.hasWithin maxPriority)).map (listedFile maxPriority d.path)⟩

/-- The sections of the directories with such files, in the order of the tree. -/
def listing (maxPriority : Int) (tree : Directory) : List DirectorySection :=
  (tree.directories.filter fun d => d.files.any (·.hasWithin maxPriority)).map (listedDirectory maxPriority)

/-- The files with a section are those with a violation up to the priority. -/
private theorem filterMap_fileSectionOf {files : List FileResults} (h : ∀ f ∈ files, IsRankedFile f)
    {maxPriority : Int} (hhigh : maxPriority ≤ Rule.maxPriority) (directory : Option String) :
    files.filterMap (fileSectionOf maxPriority directory) =
      (files.filter (·.hasWithin maxPriority)).map (listedFile maxPriority directory) := by
  rw [← List.filterMap_eq_map, List.filterMap_filter]
  apply List.filterMap_congr
  intro f hf
  rw [fileSectionOf, map_rowOf_visible_eq (h f hf) hhigh]
  rfl

/-- The directories with a section are those with such a file. -/
private theorem directorySectionOf_eq_ite {d : Directory} (h : ∀ f ∈ d.files, IsRankedFile f) {maxPriority : Int}
    (hhigh : maxPriority ≤ Rule.maxPriority) :
    directorySectionOf maxPriority d =
      if d.files.any (·.hasWithin maxPriority) then some (listedDirectory maxPriority d) else none := by
  rw [directorySectionOf, filterMap_fileSectionOf h hhigh, listedDirectory]
  split
  · next hnil =>
    rw [List.map_eq_nil_iff, List.filter_eq_nil_iff] at hnil
    rw [List.any_eq_false.2 hnil]
    rfl
  · next hne =>
    -- some section is left, so some file has a violation
    have hany : d.files.any (·.hasWithin maxPriority) = true := by
      by_contra hnone
      rw [Bool.not_eq_true, List.any_eq_false] at hnone
      exact hne (by rw [List.filter_eq_nil_iff.2 hnone, List.map_nil])
    rw [if_pos hany]

/-- The sections of a tree with ranked violations. -/
theorem sections_eq_listing {tree : Directory} (h : ∀ f ∈ tree.allFiles, IsRankedFile f) {maxPriority : Int}
    (hhigh : maxPriority ≤ Rule.maxPriority) :
    sections maxPriority tree.directories = listing maxPriority tree := by
  rw [sections, listing, ← List.filterMap_eq_map, List.filterMap_filter]
  apply List.filterMap_congr
  intro d hd
  exact directorySectionOf_eq_ite (fun f hf => h f (List.mem_flatMap.2 ⟨d, hd, hf⟩)) hhigh

/-! ## The names of files -/

/-- Below a directory with a path, a file is named by what its path adds to it. -/
theorem displayName_of_parentPath {directory file : String} (h : parentPath file = directory)
    (hne : directory ≠ "") :
    file = directory ++ "/" ++ displayName (some directory) file ∧
      '/' ∉ (displayName (some directory) file).toList := by
  unfold parentPath at h
  split at h
  · next name hcut =>
    rw [h] at hcut
    obtain ⟨hfile, hmem⟩ := Text.cutLast?_eq_some_iff.1 hcut
    -- the path of the directory and a slash are what is cut off
    have hlead : file.toList = (directory.toList ++ ['/']) ++ name.toList := by simp [hfile]
    have hname : displayName (some directory) file = name := by
      simp only [displayName, hlead, List.drop_left]
      simp [hne]
    rw [hname]
    refine ⟨?_, hmem⟩
    rw [← String.toList_inj, hfile]
    simp
  · exact absurd h.symm hne

/-- In the section of the root a file is named by its path. In any other it is named by what follows the path of
    the directory and a slash, in which there is no further slash. -/
structure FileSection.IsNamedIn (directory : String) (s : FileSection) : Prop where
  root : directory = "" → s.displayName = s.path
  below : directory ≠ "" → s.path = directory ++ "/" ++ s.displayName ∧ '/' ∉ s.displayName.toList

/-- In a well-placed tree every file is named within its directory. -/
private theorem isNamedIn_listing {tree : Directory} (h : tree.WellPlaced) {maxPriority : Int} {s : DirectorySection}
    (hs : s ∈ listing maxPriority tree) {file : FileSection} (hfile : file ∈ s.files) :
    file.IsNamedIn s.path := by
  obtain ⟨d, hd, rfl⟩ := List.mem_map.1 hs
  obtain ⟨f, hf, rfl⟩ := List.mem_map.1 hfile
  -- a file stands in the directory that its path names
  have hpath := h.path_eq_of_mem_files (List.mem_filter.1 hd).1 (List.mem_filter.1 hf).1
  simp only [listedDirectory, listedFile, hpath, Option.getD_some]
  constructor
  · intro hroot
    simp [displayName, hroot]
  · exact displayName_of_parentPath rfl

/-! ## Reports -/

/-- For every tree whose violations have priorities from one to four, the sections of a report up to such a priority
    are the listing of the tree: there is one for each file with a violation up to the priority and for no other, and
    it has all of these violations, the most severe first and otherwise as they were detected. In a tree that a
    builder makes, finalized or not, files are named within their directories. There is a report exactly if the rules
    that it has to describe can be described. -/
theorem build_lists [Coercion] (tree : Directory) (hranked : ∀ f ∈ tree.allFiles, ∀ v ∈ f.violations, v.IsRanked)
    (maxPriority : Int) (hlow : Rule.minPriority ≤ maxPriority) (hhigh : maxPriority ≤ Rule.maxPriority)
    (title : Option String) (bundle : Option Bundle) :
    ((∃ report, build (some tree) maxPriority title bundle = .ok report) ↔
      ∀ rule ∈ indexedRules (shownViolations maxPriority tree), IsDescribable rule) ∧
    ∀ report, build (some tree) maxPriority title bundle = .ok report →
      report.directorySections = listing maxPriority tree ∧
      ∀ run b, Builder.empty.insertAll run = .ok b → b.IsTreeOf tree →
        ∀ s ∈ report.directorySections, ∀ file ∈ s.files, file.IsNamedIn s.path := by
  constructor
  · rw [exists_build_eq_ok_iff hlow hhigh, and_iff_right (canBeShown_of_ranked hranked maxPriority)]
  · intro report hreport
    obtain ⟨rows, -, rfl⟩ := (build_eq_ok hranked hlow hhigh).1 hreport
    have hlisting := sections_eq_listing hranked hhigh
    refine ⟨hlisting, ?_⟩
    intro run b hrun htree s hs file hfile
    -- only the names of the files need the tree to be one that a builder made
    have hholds := Builder.holds_of_insertAll hrun
    have hs' : s ∈ sections maxPriority tree.directories := hs
    rw [hlisting] at hs'
    exact isNamedIn_listing (hholds.tree htree).1 hs' hfile

/-- A file whose most severe violation was detected between two equal ones, a file in a directory whose name starts
    with that of the other, and a file at the root with a slash in front. -/
def unevenRun : List Insertion :=
  [.file ⟨"a/B.java", [⟨.duplicateImport, some 9, none, none⟩, ⟨.booleanMethodReturnsNull, some 7, none, none⟩,
      ⟨.duplicateImport, some 9, none, none⟩]⟩,
    .file ⟨"ab/C.java", [⟨.booleanMethodReturnsNull, none, none, none⟩]⟩,
    .file ⟨"/D.java", [⟨.duplicateImport, some 1, none, none⟩]⟩]

/-- There is a report on the run, with its sections and names as they should be. -/
theorem build_lists_unevenRun :
    ∃ b report, Builder.empty.insertAll unevenRun = .ok b ∧
      (∀ f ∈ b.finalize.root.allFiles, ∀ v ∈ f.violations, v.IsRanked) ∧
      Rule.minPriority ≤ 3 ∧ 3 ≤ Rule.maxPriority ∧
      build (some b.finalize.root) 3 none none = .ok report ∧
      report.directorySections = listing 3 b.finalize.root ∧
      ∀ s ∈ report.directorySections, ∀ file ∈ s.files, file.IsNamedIn s.path := by
  obtain ⟨b, hrun, hholds⟩ := Builder.holds_empty.insertAll unevenRun
  have hfiles := (hholds.tree (.inr rfl)).2.2
  -- the priorities in the run are two and three, and no rule has a description
  have hmild : ∀ f ∈ Insertion.files unevenRun, ∀ v ∈ f.violations,
      v.rule.priority.number? = some 2 ∨ v.rule.priority.number? = some 3 := by decide
  have hunset : ∀ f ∈ Insertion.files unevenRun, ∀ v ∈ f.violations,
      v.rule.properties.description.isSet = false := by decide
  have hranked : ∀ f ∈ b.finalize.root.allFiles, ∀ v ∈ f.violations, v.IsRanked := by
    intro f hf v hv
    rcases hmild f (hfiles.mem_iff.1 hf) v hv with hpriority | hpriority
    · exact ⟨2, hpriority, by decide, by decide⟩
    · exact ⟨3, hpriority, by decide, by decide⟩
  obtain ⟨hbuilt, hlists⟩ := build_lists b.finalize.root hranked 3 (by decide) (by decide) none none
  obtain ⟨report, hreport⟩ := hbuilt.2
    (isDescribable_of_not_isSet (fun f hf => hunset f (hfiles.mem_iff.1 hf)) 3)
  obtain ⟨hlisting, hnamed⟩ := hlists report hreport
  exact ⟨b, report, hrun, hranked, by decide, by decide, hreport, hlisting, hnamed unevenRun b hrun (.inr rfl)⟩

/-- Equal violations are shown as often as they were detected. -/
example : ((Insertion.files unevenRun).map (rowsByPriority 3)).map (·.map (·.priority)) = [[2, 3, 3], [2], [3]] := by
  decide

end JavaLint.Report
