import JavaLint.Proofs.Results.Entries
import JavaLint.Proofs.Results.Lineage
import Mathlib.Data.List.Nodup

/-!
# Well-placed results trees

In a well-placed tree every directory and every file stands in the directory that its path names, and no
path is taken twice. Such a tree can be read by paths alone: the part of it below a directory is what its
paths put inside that directory, so every number the directory answers is a number about files.

- `WellPlaced`: the invariant, which is about the table of directories only
- `WellPlaced.exists_parent`: every directory but the root stands in the directory of its parent path
- `WellPlaced.directories_eq_filter`, `WellPlaced.allFiles_eq_filesUnder`: what stands below a directory
- `WellPlaced.answers`: the numbers that a directory answers
-/

namespace JavaLint

namespace Directory

/-- The entry has a path, it counts its own files, and what it holds lies directly in its path. -/
def Entry.IsPlaced (e : Entry) : Prop :=
  ∃ path, e.path = some path ∧ e.fileCount = e.files.length ∧
    (∀ f ∈ e.files, parentPath f.path = path) ∧
    ∀ folder ∈ e.folders, ∃ q, folder = some q ∧ q ≠ "" ∧ parentPath q = path

/-- The root is the directory of the empty path, no path is taken twice, and everything is placed. -/
structure WellPlaced (root : Directory) : Prop where
  root_path : root.path = some ""
  nodup_paths : (root.entries.map (·.path)).Nodup
  placed : ∀ e ∈ root.entries, e.IsPlaced

/-- The path of the directory is the given one or lies in it. -/
def isInside (path : String) (d : Directory) : Bool :=
  d.path.any (inside path)

/-- The files that have the given path among their ancestors. -/
def filesUnder (path : String) (files : List FileResults) : List FileResults :=
  files.filter fun f => (ancestors f.path).contains path

namespace WellPlaced

variable {root d e : Directory} {path q : String}

/-! ## Directories of a well-placed tree -/

/-- What the entry of a directory of the tree says of the directory. -/
private theorem isPlaced (h : root.WellPlaced) (hd : d ∈ root.directories) : d.entry.IsPlaced :=
  h.placed d.entry (List.mem_map_of_mem hd)

/-- Every directory of the tree has a path. -/
theorem exists_path (h : root.WellPlaced) (hd : d ∈ root.directories) : ∃ path, d.path = some path := by
  obtain ⟨path, hpath, -⟩ := h.isPlaced hd
  exact ⟨path, hpath⟩

/-- A directory counts the files in it. -/
theorem fileCount_eq (h : root.WellPlaced) (hd : d ∈ root.directories) :
    d.fileCount = d.files.length := by
  obtain ⟨-, -, hcount, -⟩ := h.isPlaced hd
  exact hcount

/-- A file stands in the directory of its parent path. -/
theorem path_eq_of_mem_files (h : root.WellPlaced) (hd : d ∈ root.directories) {f : FileResults}
    (hf : f ∈ d.files) : d.path = some (parentPath f.path) := by
  obtain ⟨path, hpath, -, hfiles, -⟩ := h.isPlaced hd
  rw [hfiles f hf]
  exact hpath

/-- A directory in another one has a path that is not empty and lies directly in the path of the other. -/
theorem exists_path_of_mem_subdirectories (h : root.WellPlaced) (hd : d ∈ root.directories)
    (he : e ∈ d.subdirectories) :
    ∃ q, e.path = some q ∧ q ≠ "" ∧ d.path = some (parentPath q) := by
  obtain ⟨path, hpath, -, -, hfolders⟩ := h.isPlaced hd
  obtain ⟨q, hq, hne, hparent⟩ := hfolders e.path (List.mem_map_of_mem he)
  exact ⟨q, hq, hne, hpath.trans (congrArg some hparent.symm)⟩

/-- Every directory but the root stands in the directory of its parent path. -/
theorem exists_parent (h : root.WellPlaced) (hd : d ∈ root.directories) (hpath : d.path = some path)
    (hne : path ≠ "") :
    ∃ p ∈ root.directories, p.path = some (parentPath path) ∧ d ∈ p.subdirectories := by
  rcases eq_root_or_mem_subdirectories hd with rfl | ⟨p, hp, hdp⟩
  · -- the root has the empty path
    rw [h.root_path] at hpath
    exact absurd (Option.some.inj hpath).symm hne
  · obtain ⟨q, hq, -, hparent⟩ := h.exists_path_of_mem_subdirectories hp hdp
    rw [hpath] at hq
    obtain rfl := Option.some.inj hq
    exact ⟨p, hp, hparent, hdp⟩

/-- The directories of a tree are told apart by their paths. -/
private theorem eq_of_path_eq (h : root.WellPlaced) (hd : d ∈ root.directories) (he : e ∈ root.directories)
    (hpath : d.path = e.path) : d = e := by
  have hnodup : (root.directories.map (·.path)).Nodup := by
    rw [map_path_directories]
    exact h.nodup_paths
  exact List.inj_on_of_nodup_map hnodup hd he hpath

/-- The empty path is a path of the tree. -/
theorem root_path_mem (h : root.WellPlaced) : some "" ∈ root.entries.map (·.path) := by
  rw [entries_eq_cons, List.map_cons, ← h.root_path]
  exact List.mem_cons_self

/-- The paths of the tree contain the ancestors of each path. -/
theorem ancestor_mem_paths (h : root.WellPlaced) {ancestor : String}
    (hpath : some path ∈ root.entries.map (·.path)) (hin : ancestor ∈ ancestors path) :
    some ancestor ∈ root.entries.map (·.path) := by
  fun_induction ancestors path with
  | case1 path hempty =>
    rw [List.mem_singleton.1 hin]
    exact h.root_path_mem
  | case2 path hparent ih =>
    -- the parent path has a directory, and every other ancestor is one of that path
    have hmem : some (parentPath path) ∈ root.entries.map (·.path) := by
      rw [← map_path_directories] at hpath ⊢
      obtain ⟨d, hd, hdpath⟩ := List.mem_map.1 hpath
      obtain ⟨p, hp, hppath, -⟩ := h.exists_parent hd hdpath (ne_empty_of_parentPath hparent)
      rw [← hppath]
      exact List.mem_map_of_mem hp
    rcases List.mem_cons.1 hin with rfl | hin
    · exact hmem
    · exact ih hmem hin

/-! ## What stands below a directory -/

/-- What stands below a directory lies inside its path. -/
private theorem isInside_of_mem_directories (h : root.WellPlaced) (hd : d ∈ root.directories)
    (hpath : d.path = some path) (he : e ∈ d.directories) : e.isInside path = true := by
  induction d using induction generalizing path with
  | step d ih =>
    rw [directories_eq, List.mem_cons, List.mem_flatMap] at he
    rcases he with rfl | ⟨c, hc, he⟩
    · simp [isInside, hpath]
    · -- what is inside a directory of `d` is inside the path of `d`, one step up
      obtain ⟨q, hq, -, hparent⟩ := h.exists_path_of_mem_subdirectories hd hc
      have hcmem := mem_directories_of_mem_subdirectories hd hc
      have hinside := ih c hc hcmem hq he
      obtain ⟨r, hr⟩ := h.exists_path (mem_directories_trans hcmem he)
      rw [isInside, hr, Option.any_some] at hinside ⊢
      rw [hpath] at hparent
      rw [Option.some.inj hparent]
      exact inside_parentPath hinside

/-- A directory of the tree whose path lies inside that of another one stands below it. -/
private theorem mem_directories_of_inside (h : root.WellPlaced) (hd : d ∈ root.directories)
    (hpath : d.path = some path) (he : e ∈ root.directories) (hq : e.path = some q)
    (hinside : inside path q = true) : e ∈ d.directories := by
  -- induction on the length of the path: the parent of `e` is inside too, unless `e` is `d` itself
  induction hn : q.length using Nat.strongRecOn generalizing e q with
  | ind n ih =>
    by_cases heq : q = path
    · have hsame : d = e := h.eq_of_path_eq hd he (by rw [hpath, hq, heq])
      rw [← hsame]
      exact self_mem_directories d
    · by_cases hempty : q = ""
      · -- the empty path is inside no other path
        rw [inside_iff_parent heq, hempty, parentPath_empty, inside_iff] at hinside
        rw [hempty] at heq
        rcases hinside with hinside | hinside
        · exact absurd hinside heq
        · rw [ancestors_of_parent_empty parentPath_empty, List.mem_singleton] at hinside
          exact absurd hinside.symm heq
      · obtain ⟨p, hp, hppath, hep⟩ := h.exists_parent he hq hempty
        have hlt : (parentPath q).length < n := hn ▸ length_parentPath_lt hempty
        have hpd := ih _ hlt hp hppath ((inside_iff_parent heq).1 hinside) rfl
        exact mem_directories_of_mem_subdirectories hpd hep

/-- What stands below a directory is what lies inside its path, in the order of the tree. -/
theorem directories_eq_filter (h : root.WellPlaced) (hd : d ∈ root.directories)
    (hpath : d.path = some path) : d.directories = root.directories.filter (·.isInside path) := by
  obtain ⟨before, after, hsplit⟩ := exists_directories_eq_append hd
  have hnodup : ((before ++ d.directories ++ after).map (·.path)).Nodup := by
    rw [← hsplit, map_path_directories]
    exact h.nodup_paths
  -- a directory elsewhere that lies inside the path would stand below `d` as well
  have hbelow : ∀ e ∈ root.directories, e.isInside path = true → e ∈ d.directories := by
    intro e he hinside
    obtain ⟨q, hq⟩ := h.exists_path he
    rw [isInside, hq, Option.any_some] at hinside
    exact h.mem_directories_of_inside hd hpath he hq hinside
  simp only [List.map_append, List.nodup_append, List.mem_append, List.mem_map] at hnodup
  -- no path is taken twice, so nothing before or after `d` lies inside its path
  have hbefore : before.filter (·.isInside path) = [] := by
    rw [List.filter_eq_nil_iff]
    intro e he hinside
    have hmem := hbelow e (by rw [hsplit]; simp [he]) hinside
    exact hnodup.1.2.2 e.path ⟨e, he, rfl⟩ e.path ⟨e, hmem, rfl⟩ rfl
  have hafter : after.filter (·.isInside path) = [] := by
    rw [List.filter_eq_nil_iff]
    intro e he hinside
    have hmem := hbelow e (by rw [hsplit]; simp [he]) hinside
    exact hnodup.2.2 e.path (.inr ⟨e, hmem, rfl⟩) e.path ⟨e, he, rfl⟩ rfl
  have hself : d.directories.filter (·.isInside path) = d.directories := by
    rw [List.filter_eq_self]
    intro e he
    exact h.isInside_of_mem_directories hd hpath he
  rw [hsplit, List.filter_append, List.filter_append, hbefore, hafter, hself]
  simp

/-- Of the files of one directory, all or none have a given path among their ancestors. -/
private theorem filesUnder_files (h : root.WellPlaced) (he : e ∈ root.directories) (path : String) :
    filesUnder path e.files = if e.isInside path then e.files else [] := by
  -- the files of a directory have one parent, which decides for all of them
  have hall : ∀ f ∈ e.files, (ancestors f.path).contains path = e.isInside path := by
    intro f hf
    rw [isInside, h.path_eq_of_mem_files he hf, Option.any_some, Bool.eq_iff_iff,
      List.contains_iff_mem]
    exact mem_ancestors_iff_inside
  rw [filesUnder, List.filter_congr hall]
  cases e.isInside path <;> simp

/-- The files below a directory are those that have its path among their ancestors. -/
theorem allFiles_eq_filesUnder (h : root.WellPlaced) (hd : d ∈ root.directories)
    (hpath : d.path = some path) : d.allFiles = filesUnder path root.allFiles := by
  -- a directory inside the path gives all its files, any other none
  have hkept : root.directories.flatMap (fun e => filesUnder path e.files) =
      (root.directories.filter (·.isInside path)).flatMap files := by
    rw [List.flatMap_congr fun e he => h.filesUnder_files he path]
    induction root.directories with
    | nil => rfl
    | cons e rest ih =>
      rw [List.flatMap_cons, List.filter_cons, ih]
      cases e.isInside path <;> simp
  calc d.allFiles = (root.directories.filter (·.isInside path)).flatMap files := by
        rw [allFiles, h.directories_eq_filter hd hpath]
    _ = root.directories.flatMap (fun e => filesUnder path e.files) := hkept.symm
    _ = filesUnder path root.allFiles := by
        rw [filesUnder, allFiles, List.filter_flatMap]
        rfl

/-! ## The numbers that a directory answers -/

/-- The number of files of a directory is the number of files below it. -/
theorem totalFiles_eq_length (h : root.WellPlaced) (hd : d ∈ root.directories) :
    d.totalFiles = d.allFiles.length := by
  -- each directory has counted its files right
  have hcount : d.directories.map (·.fileCount) = d.directories.map fun e => (e.files.length : Int) :=
    List.map_congr_left fun e he => h.fileCount_eq (mem_directories_trans hd he)
  rw [totalFiles_eq_sum, hcount, allFiles]
  induction d.directories with
  | nil => rfl
  | cons e rest ih =>
    rw [List.map_cons, List.sum_cons, ih, List.flatMap_cons, List.length_append, Int.natCast_add]

end WellPlaced

/-- The numbers that a directory answers are numbers about those of the files that have its path among
    their ancestors. -/
structure Answers (files : List FileResults) (path : String) (d : Directory) : Prop where
  totalFiles : d.totalFiles = (filesUnder path files).length
  countWith : ∀ priority, d.countWith priority =
    ((filesUnder path files).flatMap (·.violations)).countP (·.hasPriority priority)
  filesWithin : ∀ maxPriority, d.filesWithin maxPriority =
    (filesUnder path files).countP fun f => f.violations.any (·.isWithin maxPriority)

/-- In a well-placed tree with the given files, every directory answers for the files under its path. -/
theorem WellPlaced.answers {root d : Directory} {path : String} {files : List FileResults}
    (h : root.WellPlaced) (hfiles : root.allFiles.Perm files) (hd : d ∈ root.directories)
    (hpath : d.path = some path) : d.Answers files path := by
  -- the files below the directory are the given ones under its path, in another order
  have hperm : d.allFiles.Perm (filesUnder path files) := by
    rw [h.allFiles_eq_filesUnder hd hpath]
    exact hfiles.filter _
  constructor
  · rw [h.totalFiles_eq_length hd, hperm.length_eq]
  · intro priority
    rw [countWith_eq_sum, List.countP_flatMap, (hperm.map _).sum_eq]
    rfl
  · intro maxPriority
    rw [filesWithin_eq_countP, hperm.countP_eq]
    rfl

end Directory

end JavaLint
