import JavaLint.Proofs.Outcome
import JavaLint.Results.Builder
import Mathlib.Algebra.BigOperators.Group.List.Basic
import Mathlib.Algebra.GroupWithZero.Nat
import Mathlib.Algebra.Ring.Int.Defs

/-!
# Views of a results tree

The directories of a tree in tree order are the view that everything else is read from: the files of the
tree, its totals, and a flat table with one entry for each directory.

- `induction`: what holds of a directory once it holds of the directories in it holds of every directory
- `directories_eq`, `exists_directories_eq_append`: where a directory and those below it stand in tree order
- `countWith_eq_sum`, `filesWithin_eq_countP`, `totalFiles_eq_sum`: every total is a sum over the view
- `entries`: the table, which says of each directory what it holds itself
- `entries_sealTree`: what happens to the table when the tree is sealed
-/

namespace JavaLint.Directory

/-! ## Tree order -/

/-- The directories directly in a directory, in order. -/
def subdirectories (d : Directory) : List Directory :=
  d.children.filterMap Sum.getRight?

/-- Tree order goes through the directories among the children and skips the files. -/
private theorem directoriesIn_eq_flatMap (children : List (FileResults ⊕ Directory)) :
    directoriesIn children = (children.filterMap Sum.getRight?).flatMap directories := by
  induction children with
  | nil => rfl
  | cons child rest ih => cases child <;> simp [directoriesIn, ih, List.filterMap_cons]

/-- A directory comes first, and then the directories in it with all below them. -/
theorem directories_eq (d : Directory) :
    d.directories = d :: d.subdirectories.flatMap directories := by
  obtain ⟨path, fileCount, isSealed, children⟩ := d
  rw [directories, directoriesIn_eq_flatMap]
  rfl

mutual

/-- What holds of a directory once it holds of the directories in it holds of every directory. -/
theorem induction {motive : Directory → Prop}
    (step : ∀ d, (∀ c ∈ d.subdirectories, motive c) → motive d) : ∀ d, motive d
  | ⟨_, _, _, children⟩ => step _ (inductionIn step children)

/-- The same for the directories of a list of children. -/
theorem inductionIn {motive : Directory → Prop}
    (step : ∀ d, (∀ c ∈ d.subdirectories, motive c) → motive d) :
    ∀ children : List (FileResults ⊕ Directory), ∀ c ∈ children.filterMap Sum.getRight?, motive c
  | [] => by simp
  | .inl _ :: rest => by simpa using inductionIn step rest
  | .inr d :: rest => by
    rw [List.filterMap_cons]
    refine List.forall_mem_cons.2 ?_
    exact ⟨induction step d, inductionIn step rest⟩

end

/-- The files of a directory are the files among its children. -/
theorem mem_files {d : Directory} {f : FileResults} : f ∈ d.files ↔ .inl f ∈ d.children := by
  simp [files, List.mem_filterMap]

/-- The directories in a directory are those among its children. -/
theorem mem_subdirectories {d c : Directory} : c ∈ d.subdirectories ↔ .inr c ∈ d.children := by
  simp [subdirectories, List.mem_filterMap]

/-- A directory is the first of its own tree. -/
theorem self_mem_directories (d : Directory) : d ∈ d.directories := by
  rw [directories_eq]
  exact List.mem_cons_self

/-- A directory of the tree stands there with all directories below it, without others between them. -/
theorem exists_directories_eq_append {root d : Directory} (h : d ∈ root.directories) :
    ∃ before after, root.directories = before ++ d.directories ++ after := by
  induction root using induction with
  | step root ih =>
    rw [directories_eq, List.mem_cons, List.mem_flatMap] at h
    rcases h with rfl | ⟨c, hc, hd⟩
    · exact ⟨[], [], by simp⟩
    · -- before it stand the root and what is left of its branch, after it what is right of that
      obtain ⟨left, right, hsplit⟩ := List.append_of_mem hc
      obtain ⟨before, after, hinner⟩ := ih c hc hd
      refine ⟨root :: (left.flatMap directories ++ before), after ++ right.flatMap directories, ?_⟩
      rw [directories_eq, hsplit, List.flatMap_append, List.flatMap_cons, hinner]
      simp only [List.cons_append, List.append_assoc]

/-- What stands below a directory of the tree is a directory of the tree. -/
theorem mem_directories_trans {root d e : Directory} (hd : d ∈ root.directories)
    (he : e ∈ d.directories) : e ∈ root.directories := by
  obtain ⟨before, after, hsplit⟩ := exists_directories_eq_append hd
  rw [hsplit, List.mem_append, List.mem_append]
  exact .inl (.inr he)

/-- What is in a directory of the tree is a directory of the tree. -/
theorem mem_directories_of_mem_subdirectories {root d c : Directory} (hd : d ∈ root.directories)
    (hc : c ∈ d.subdirectories) : c ∈ root.directories := by
  refine mem_directories_trans hd ?_
  rw [directories_eq, List.mem_cons, List.mem_flatMap]
  exact .inr ⟨c, hc, self_mem_directories c⟩

/-- A directory of the tree is its root or directly in another directory of the tree. -/
theorem eq_root_or_mem_subdirectories {root d : Directory} (h : d ∈ root.directories) :
    d = root ∨ ∃ p ∈ root.directories, d ∈ p.subdirectories := by
  induction root using induction with
  | step root ih =>
    rw [directories_eq, List.mem_cons, List.mem_flatMap] at h
    rcases h with rfl | ⟨c, hc, hd⟩
    · exact .inl rfl
    · have hroot := self_mem_directories root
      -- it is the top of its branch, which stands in the root, or stands deeper in the branch
      rcases ih c hc hd with rfl | ⟨p, hp, hdp⟩
      · exact .inr ⟨root, hroot, hc⟩
      · have hpmem : p ∈ root.directories := by
          rw [directories_eq, List.mem_cons, List.mem_flatMap]
          exact .inr ⟨c, hc, hp⟩
        exact .inr ⟨p, hpmem, hdp⟩

/-! ## Totals -/

/-- The files of a directory and of the directories below, directory by directory. -/
def allFiles (d : Directory) : List FileResults :=
  d.directories.flatMap files

/-- A number that each directory computes from its own share and the numbers of the directories in it is
    the sum of the shares of all directories of the tree. -/
private theorem eq_sum_directories {M : Type} [AddMonoid M] {total own : Directory → M}
    (h : ∀ d, total d = own d + (d.subdirectories.map total).sum) (d : Directory) :
    total d = (d.directories.map own).sum := by
  induction d using induction with
  | step d ih =>
    -- by induction the totals of the branches are sums already, and only have to be joined
    have hbelow : d.subdirectories.map total =
        d.subdirectories.map fun c => (c.directories.map own).sum :=
      List.map_congr_left ih
    rw [h, hbelow, directories_eq, List.map_cons, List.sum_cons, List.map_flatMap, List.flatMap_def,
      List.sum_flatten, List.map_map]
    rfl

/-- A sum over the directories of a tree, each with the sum over its files, is a sum over all files. -/
theorem sum_directories_files (f : FileResults → Nat) (d : Directory) :
    (d.directories.map fun e => (e.files.map f).sum).sum = (d.allFiles.map f).sum := by
  rw [allFiles, List.map_flatMap, List.flatMap_def, List.sum_flatten, List.map_map]
  rfl

/-- In a list of children, violations are counted in the files and in the directories apart. -/
private theorem countWithIn_eq_sum (priority : Int) (children : List (FileResults ⊕ Directory)) :
    countWithIn priority children =
      ((children.filterMap Sum.getLeft?).map (·.countWith priority)).sum +
        ((children.filterMap Sum.getRight?).map (countWith priority)).sum := by
  induction children with
  | nil => rfl
  | cons child rest ih => cases child <;> simp [countWithIn, ih, List.filterMap_cons] <;> omega

/-- The violations with a priority are counted file by file. -/
theorem countWith_eq_sum (priority : Int) (d : Directory) :
    d.countWith priority = (d.allFiles.map (·.countWith priority)).sum := by
  rw [← sum_directories_files]
  refine eq_sum_directories (fun e => ?_) d
  obtain ⟨path, fileCount, isSealed, children⟩ := e
  rw [countWith, countWithIn_eq_sum]
  rfl

/-- So are the files with a violation up to a priority. -/
private theorem filesWithinIn_eq_sum (maxPriority : Int) (children : List (FileResults ⊕ Directory)) :
    filesWithinIn maxPriority children =
      ((children.filterMap Sum.getLeft?).map (·.filesWithin maxPriority)).sum +
        ((children.filterMap Sum.getRight?).map (filesWithin maxPriority)).sum := by
  induction children with
  | nil => rfl
  | cons child rest ih => cases child <;> simp [filesWithinIn, ih, List.filterMap_cons] <;> omega

/-- The files with a violation up to a priority are counted one by one. -/
theorem filesWithin_eq_countP (maxPriority : Int) (d : Directory) :
    d.filesWithin maxPriority = d.allFiles.countP (·.hasWithin maxPriority) := by
  have hsum : d.filesWithin maxPriority = (d.allFiles.map (·.filesWithin maxPriority)).sum := by
    rw [← sum_directories_files]
    refine eq_sum_directories (fun e => ?_) d
    obtain ⟨path, fileCount, isSealed, children⟩ := e
    rw [filesWithin, filesWithinIn_eq_sum]
    rfl
  -- a file counts as one or as nothing, so the sum is a count
  rw [hsum]
  induction d.allFiles with
  | nil => rfl
  | cons f rest ih =>
    rw [List.map_cons, List.sum_cons, List.countP_cons, ih, FileResults.filesWithin]
    exact Nat.add_comm _ _

/-- Children that are files add nothing: a directory has a count of its own for them. -/
private theorem totalFilesIn_eq_sum (children : List (FileResults ⊕ Directory)) :
    totalFilesIn children = ((children.filterMap Sum.getRight?).map totalFiles).sum := by
  induction children with
  | nil => rfl
  | cons child rest ih => cases child <;> simp [totalFilesIn, ih, List.filterMap_cons]

/-- The number of files is the sum of what the directories of the tree counted. -/
theorem totalFiles_eq_sum (d : Directory) :
    d.totalFiles = (d.directories.map (·.fileCount)).sum := by
  refine eq_sum_directories (fun e => ?_) d
  obtain ⟨path, fileCount, isSealed, children⟩ := e
  rw [totalFiles, totalFilesIn_eq_sum]
  rfl

/-- Children pass the check if all files and all directories among them do. -/
private theorem checkWithinIn_eq_ok_iff {maxPriority : Int} {children : List (FileResults ⊕ Directory)} :
    checkWithinIn maxPriority children = .ok () ↔
      (∀ f ∈ children.filterMap Sum.getLeft?, f.checkWithin maxPriority = .ok ()) ∧
        ∀ c ∈ children.filterMap Sum.getRight?, c.checkWithin maxPriority = .ok () := by
  induction children with
  | nil => simp [checkWithinIn]
  | cons child rest ih =>
    cases child with
    | inl f => simp [checkWithinIn, check_bind_eq_ok_iff, ih, List.filterMap_cons, and_assoc]
    | inr d => simp [checkWithinIn, check_bind_eq_ok_iff, ih, List.filterMap_cons, and_left_comm]

/-- Priorities can be compared in a tree if they can in every file. -/
theorem checkWithin_eq_ok_iff {maxPriority : Int} {d : Directory} :
    d.checkWithin maxPriority = .ok () ↔ ∀ f ∈ d.allFiles, f.checkWithin maxPriority = .ok () := by
  induction d using induction with
  | step d ih =>
    have hdirectory : d.checkWithin maxPriority = checkWithinIn maxPriority d.children := by
      cases d
      rw [checkWithin]
    rw [hdirectory, checkWithinIn_eq_ok_iff, allFiles, directories_eq, List.flatMap_cons,
      List.forall_mem_append, List.flatMap_assoc]
    -- the own files are checked the same way on both sides; the rest is by induction
    refine and_congr_right fun _ => ?_
    constructor
    · intro h f hf
      obtain ⟨c, hc, hf⟩ := List.mem_flatMap.1 hf
      exact (ih c hc).1 (h c hc) f hf
    · intro h c hc
      exact (ih c hc).2 fun f hf => h f (List.mem_flatMap.2 ⟨c, hc, hf⟩)

/-! ## The table of directories -/

/-- What a directory holds itself. `folders` are the paths of the directories directly in it. -/
structure Entry where
  path : Option String
  fileCount : Int
  isSealed : Bool
  files : List FileResults
  folders : List (Option String)

/-- The entry of a directory. -/
def entry (d : Directory) : Entry :=
  ⟨d.path, d.fileCount, d.isSealed, d.files, d.subdirectories.map (·.path)⟩

/-- The entries of a directory and of those below it, in tree order. -/
def entries (d : Directory) : List Entry :=
  d.directories.map entry

/-- The directories below a directory, as entries. -/
def entriesBelow (d : Directory) : List Entry :=
  d.subdirectories.flatMap entries

/-- The table starts with the directory itself. -/
theorem entries_eq_cons (d : Directory) : d.entries = d.entry :: d.entriesBelow := by
  rw [entries, directories_eq, List.map_cons, List.map_flatMap]
  rfl

/-- The table lists the same paths as the tree. -/
theorem map_path_directories (d : Directory) :
    d.directories.map (·.path) = d.entries.map (·.path) := by
  rw [entries, List.map_map]
  rfl

/-- The path of a directory of the tree is in the table. -/
theorem mem_paths {root d : Directory} {path : String} (hd : d ∈ root.directories)
    (hpath : d.path = some path) : some path ∈ root.entries.map (·.path) := by
  rw [← map_path_directories, ← hpath]
  exact List.mem_map_of_mem hd

/-- The table lists the same files as the tree. -/
theorem allFiles_eq_flatMap_entries (d : Directory) : d.allFiles = d.entries.flatMap (·.files) := by
  rw [entries, List.flatMap_map]
  rfl

/-! ## Sealing -/

/-- The entry of a directory after it was sealed. -/
def Entry.seal (e : Entry) : Entry :=
  { e with isSealed := true }

/-- Sealing keeps the files among the children and seals the directories. -/
theorem children_sealTree (d : Directory) : d.sealTree.children = d.children.map (Sum.map id sealTree) := by
  have hchildren : ∀ children, sealChildren children = children.map (Sum.map id sealTree) := by
    -- files are passed by, and each directory is sealed as it is met
    intro children
    induction children with
    | nil => rfl
    | cons child rest ih => cases child <;> rw [sealChildren, ih] <;> rfl
  obtain ⟨path, fileCount, isSealed, children⟩ := d
  rw [sealTree, hchildren]

/-- Sealing changes no file. -/
private theorem files_sealTree (d : Directory) : d.sealTree.files = d.files := by
  rw [files, files, children_sealTree, List.filterMap_map]
  exact List.filterMap_congr fun child _ => by cases child <;> rfl

/-- Sealing a tree seals the directories in a directory. -/
theorem subdirectories_sealTree (d : Directory) :
    d.sealTree.subdirectories = d.subdirectories.map sealTree := by
  rw [subdirectories, subdirectories, children_sealTree, List.filterMap_map, List.map_filterMap]
  exact List.filterMap_congr fun child _ => by cases child <;> rfl

/-- Sealing changes nothing else in an entry. -/
theorem entry_sealTree (d : Directory) : d.sealTree.entry = d.entry.seal := by
  have hfields : ∀ c : Directory, c.sealTree.path = c.path ∧ c.sealTree.fileCount = c.fileCount ∧
      c.sealTree.isSealed = true := by
    intro c
    cases c
    rw [sealTree]
    exact ⟨rfl, rfl, rfl⟩
  -- the entry also lists the directories in it, but by their paths, which sealing keeps
  have hfolders : d.sealTree.subdirectories.map (·.path) = d.subdirectories.map (·.path) := by
    rw [subdirectories_sealTree, List.map_map]
    exact List.map_congr_left fun c _ => (hfields c).1
  obtain ⟨hpath, hcount, hsealed⟩ := hfields d
  rw [entry, hfolders, files_sealTree, hpath, hcount, hsealed]
  rfl

/-- Sealing a tree seals every directory of it and changes nothing else. -/
theorem entries_sealTree (d : Directory) : d.sealTree.entries = d.entries.map Entry.seal := by
  induction d using induction with
  | step d ih =>
    -- the directory is sealed by the lemma before, and the ones below it by induction
    rw [entries_eq_cons, entries_eq_cons, List.map_cons, entry_sealTree, entriesBelow, entriesBelow,
      subdirectories_sealTree, List.flatMap_map, List.map_flatMap, List.flatMap_congr ih]

/-- Sealing keeps the paths of the table. -/
theorem map_path_sealTree (d : Directory) :
    d.sealTree.entries.map (·.path) = d.entries.map (·.path) := by
  rw [entries_sealTree, List.map_map]
  rfl

/-- Sealing keeps the files of the tree. -/
theorem allFiles_sealTree (d : Directory) : d.sealTree.allFiles = d.allFiles := by
  rw [allFiles_eq_flatMap_entries, allFiles_eq_flatMap_entries, entries_sealTree, List.flatMap_map]
  rfl

end JavaLint.Directory
