import JavaLint.Proofs.Results.Insertion

/-!
# Runs of a results tree builder

Files and directories are inserted into a new builder in any order and under any paths. The tree then has
one directory for each path that was asked for, each in the directory of its parent path, and every number
that a directory answers is a number about the inserted files that lie in it. Nothing else about the run
can be seen in these answers.

- `Insertion`, `Builder.insertAll`: a run of insertions
- `Builder.Holds`: what the tree holds after a run
- `Builder.Holds.insert`, `Builder.Holds.insertAll`: one insertion and a run keep it
- `Builder.insertAll_mirrors`: the shape of the tree and its answers, whatever the order of the run
-/

namespace JavaLint

/-! ## Insertions -/

/-- Something that is inserted into a results tree. -/
inductive Insertion where
  | file (results : FileResults)
  | directory (path : String)

namespace Insertion

def path : Insertion → String
  | .file results => results.path
  | .directory path => path

/-- The results of the file that is inserted. -/
def results? : Insertion → Option FileResults
  | .file results => some results
  | .directory _ => none

/-- The files of a run, in order. -/
def files (run : List Insertion) : List FileResults :=
  run.filterMap results?

/-- One more insertion adds its file, if it is one, at the end. -/
theorem files_append (run : List Insertion) (insertion : Insertion) :
    files (run ++ [insertion]) = files run ++ insertion.results?.toList := by
  rw [files, List.filterMap_append, files]
  cases insertion <;> rfl

/-- The run asks for a directory with this path: it is the empty path, it was inserted as a directory, or
    something was inserted that lies in it. -/
def AsksFor (run : List Insertion) (path : String) : Prop :=
  path = "" ∨ .directory path ∈ run ∨ ∃ insertion ∈ run, path ∈ ancestors insertion.path

/-- One more insertion asks for its ancestors and, if it is a directory, for itself. -/
private theorem asksFor_append {run : List Insertion} {insertion : Insertion} {path : String} :
    AsksFor (run ++ [insertion]) path ↔
      AsksFor run path ∨ insertion = .directory path ∨ path ∈ ancestors insertion.path := by
  simp only [AsksFor, List.mem_append, List.mem_singleton, or_and_right, exists_or, exists_eq_left]
  -- both sides list the same five reasons, in different groups
  constructor
  · rintro (h | (h | h) | (h | h))
    · exact .inl (.inl h)
    · exact .inl (.inr (.inl h))
    · exact .inr (.inl h.symm)
    · exact .inl (.inr (.inr h))
    · exact .inr (.inr h)
  · rintro ((h | h | h) | h | h)
    · exact .inl h
    · exact .inr (.inl (.inl h))
    · exact .inr (.inr (.inl h))
    · exact .inr (.inl (.inr h.symm))
    · exact .inr (.inr (.inr h))

end Insertion

namespace Builder

def insert (b : Builder) : Insertion → Except Error Builder
  | .file results => b.addFile results
  | .directory path => b.addDirectory path

def insertAll : Builder → List Insertion → Except Error Builder
  | b, [] => .ok b
  | b, insertion :: rest => do (← b.insert insertion).insertAll rest

/-- Inserting files one after another inserts these files. -/
theorem files_map_file (files : List FileResults) : Insertion.files (files.map .file) = files := by
  rw [Insertion.files, List.filterMap_map]
  exact List.filterMap_some

/-! ## What a run keeps -/

/-- After a run the builder is in order, its tree has the directories that the run asks for, and it holds the
    files of the run. -/
structure Holds (run : List Insertion) (b : Builder) : Prop extends b.IsOpen where
  paths : ∀ path, some path ∈ b.root.entries.map (·.path) ↔ Insertion.AsksFor run path
  files : b.root.allFiles.Perm (Insertion.files run)

/-- A new builder is in order: its tree is the root alone, and the table knows the root. -/
private theorem isOpen_empty : empty.IsOpen where
  wellPlaced := by
    refine ⟨rfl, ?_, ?_⟩
    · rw [empty, Directory.entries_new]
      simp
    · intro e he
      rw [empty, Directory.entries_new, List.mem_singleton] at he
      exact ⟨"", by rw [he], by rw [he]; rfl, by simp [he], by simp [he]⟩
  isOpen := by
    intro e he
    rw [empty, Directory.entries_new, List.mem_singleton] at he
    rw [he]
  notFinalized := rfl
  leads := by
    intro path position hposition
    by_cases hpath : path = ""
    · -- the only entry of the table leads to the root
      obtain rfl : [] = position := by simpa [position?, empty, hpath] using hposition
      exact ⟨.new "", Directory.at?_nil _, by rw [hpath]; rfl⟩
    · simp [position?, empty, List.lookup_cons, beq_eq_false_iff_ne.2 hpath] at hposition
  knows := by
    intro path hpath
    obtain rfl : path = "" := by simpa [empty, Directory.entries_new] using hpath
    exact ⟨[], rfl⟩

/-- A new builder holds what the empty run asks for. -/
theorem holds_empty : Holds [] empty where
  toIsOpen := isOpen_empty
  paths := by
    intro path
    rw [empty, Directory.entries_new]
    simp [Insertion.AsksFor]
  files := by
    rw [Directory.allFiles_eq_flatMap_entries, empty, Directory.entries_new]
    exact List.Perm.refl _

/-- What a path asks for is made. -/
theorem addDirectory_spec {b : Builder} (h : b.IsOpen) (path : String) :
    ∃ b' position t, b.addDirectory path = .ok b' ∧ Makes path b b' ∧ b'.root.at? position = some t ∧
      t.path = some path := by
  obtain ⟨b', position, t, hrun, hmakes, -, ht, htpath⟩ := directory_spec h path
  refine ⟨b', position, t, ?_, hmakes, ht, htpath⟩
  rw [addDirectory, after, hrun]

/-- The directory of a file is made if it is missing, and the file is attached and counted there. -/
theorem addFile_spec {b : Builder} (h : b.IsOpen) (file : FileResults) :
    ∃ b' position t, b.addFile file = .ok (b'.withFile file position) ∧ Makes (parentPath file.path) b b' ∧
      b'.root.at? position = some t ∧ t.path = some (parentPath file.path) := by
  obtain ⟨b', position, t, hmakes, ht, htpath, hrun⟩ := attachFile_spec h file
  refine ⟨b', position, t, ?_, hmakes, ht, htpath⟩
  rw [addFile, after, hrun]

/-- An insertion succeeds and adds what it asks for. -/
theorem Holds.insert {run : List Insertion} {b : Builder} (h : Holds run b) (insertion : Insertion) :
    ∃ b', b.insert insertion = .ok b' ∧ Holds (run ++ [insertion]) b' := by
  cases insertion with
  | directory path =>
    obtain ⟨b', position, t, hadd, hmakes, ht, htpath⟩ := addDirectory_spec h.toIsOpen path
    refine ⟨b', hadd, hmakes.isOpen h.toIsOpen, ?_, ?_⟩
    · intro q
      rw [hmakes.mem_paths_iff h.toIsOpen ht htpath, h.paths, Insertion.asksFor_append,
        Insertion.directory.injEq, eq_comm (a := q)]
      rfl
    · -- a directory brings no file
      rw [Insertion.files_append, Insertion.results?, Option.toList_none, List.append_nil]
      exact hmakes.allFiles.trans h.files
  | file results =>
    obtain ⟨b', position, t, hadd, hmakes, ht, htpath⟩ := addFile_spec h.toIsOpen results
    have hopen := hmakes.isOpen h.toIsOpen
    refine ⟨b'.withFile results position, hadd, isOpen_withFile hopen ht htpath, ?_, ?_⟩
    · -- a file asks for its parent and the ancestors of its parent, and not for its own path
      intro q
      rw [mem_paths_withFile hopen ht htpath, hmakes.mem_paths_iff h.toIsOpen ht htpath, h.paths,
        Insertion.asksFor_append, ← mem_ancestors]
      simp [Insertion.path]
    · rw [Insertion.files_append, Insertion.results?, Option.toList_some]
      -- the file stands first in one list and last in the other
      refine (allFiles_withFile hopen ht htpath).trans (((hmakes.allFiles.trans h.files).cons results).trans ?_)
      exact (List.perm_append_singleton results (Insertion.files run)).symm

/-- A run succeeds and adds what it asks for. -/
theorem Holds.insertAll {done : List Insertion} {b : Builder} (h : Holds done b) (run : List Insertion) :
    ∃ b', b.insertAll run = .ok b' ∧ Holds (done ++ run) b' := by
  -- what was inserted before the run grows by its first insertion
  induction run generalizing done b with
  | nil => exact ⟨b, rfl, by rwa [List.append_nil]⟩
  | cons insertion rest ih =>
    obtain ⟨b₁, hinsert, h₁⟩ := h.insert insertion
    obtain ⟨b₂, hrest, h₂⟩ := ih h₁
    refine ⟨b₂, ?_, ?_⟩
    · rw [Builder.insertAll, hinsert]
      exact hrest
    · rwa [List.append_assoc] at h₂

/-- A builder that a run into a new one gives holds what the run asks for. -/
theorem holds_of_insertAll {run : List Insertion} {b : Builder} (h : empty.insertAll run = .ok b) : Holds run b := by
  obtain ⟨b', hrun, hholds⟩ := holds_empty.insertAll run
  obtain rfl : b' = b := Except.ok.inj (hrun.symm.trans h)
  exact hholds

end Builder

/-! ## The shape of the tree and its answers -/

namespace Directory

/-- The tree mirrors a run: the root has the empty path, there is exactly one directory for each path that
    the run asks for and none besides, every directory but the root is a child of the directory of its
    parent path, and each answers for the files of the run that have it among their ancestors. -/
structure Mirrors (run : List Insertion) (root : Directory) : Prop where
  root_path : root.path = some ""
  nodup_paths : (root.directories.map (·.path)).Nodup
  mem_paths : ∀ path?, path? ∈ root.directories.map (·.path) ↔
    ∃ path, path? = some path ∧ Insertion.AsksFor run path
  parent : ∀ d ∈ root.directories, ∀ path, d.path = some path → path ≠ "" →
    ∃ p ∈ root.directories, p.path = some (parentPath path) ∧ .inr d ∈ p.children
  answers : ∀ d ∈ root.directories, ∀ path, d.path = some path →
    d.Answers (Insertion.files run) path

/-- Two directories answer every question with the same number. -/
structure SameAnswers (d d' : Directory) : Prop where
  totalFiles : d.totalFiles = d'.totalFiles
  countWith : ∀ priority, d.countWith priority = d'.countWith priority
  filesWithin : ∀ maxPriority, d.filesWithin maxPriority = d'.filesWithin maxPriority

/-- A well-placed tree with the directories and the files of a run mirrors it. -/
private theorem WellPlaced.mirrors {root : Directory} {run : List Insertion} (h : root.WellPlaced)
    (hpaths : ∀ path, some path ∈ root.entries.map (·.path) ↔ Insertion.AsksFor run path)
    (hfiles : root.allFiles.Perm (Insertion.files run)) : root.Mirrors run where
  root_path := h.root_path
  nodup_paths := by
    rw [map_path_directories]
    exact h.nodup_paths
  mem_paths := by
    intro path?
    constructor
    · intro hmem
      -- no directory of a well-placed tree is without a path
      obtain ⟨d, hd, rfl⟩ := List.mem_map.1 hmem
      obtain ⟨path, hpath⟩ := h.exists_path hd
      rw [map_path_directories, hpath, hpaths] at hmem
      exact ⟨path, hpath, hmem⟩
    · rintro ⟨path, rfl, hasks⟩
      rw [map_path_directories, hpaths]
      exact hasks
  parent := by
    intro d hd path hpath hne
    obtain ⟨p, hp, hparent, hmem⟩ := h.exists_parent hd hpath hne
    -- the directories of a directory are picked out of its children
    obtain ⟨child, hchild, hright⟩ := List.mem_filterMap.1 hmem
    rw [Sum.getRight?_eq_some_iff] at hright
    rw [hright] at hchild
    exact ⟨p, hp, hparent, hchild⟩
  answers := by
    intro d hd path hpath
    exact h.answers hfiles hd hpath

/-- The order of a run does not matter to what mirrors it. -/
private theorem Mirrors.of_perm {root : Directory} {run run' : List Insertion} (h : root.Mirrors run)
    (hperm : run.Perm run') : root.Mirrors run' where
  root_path := h.root_path
  nodup_paths := h.nodup_paths
  mem_paths := by
    intro path?
    simp only [h.mem_paths, Insertion.AsksFor, hperm.mem_iff]
  parent := h.parent
  answers := by
    intro d hd path hpath
    -- the files under a path are the same in another order, and no answer depends on their order
    have hfiles : (filesUnder path (Insertion.files run)).Perm
        (filesUnder path (Insertion.files run')) := (hperm.filterMap _).filter _
    have hanswers := h.answers d hd path hpath
    constructor
    · rw [hanswers.totalFiles, hfiles.length_eq]
    · intro priority
      rw [hanswers.countWith, (hfiles.flatMap_right _).countP_eq]
    · intro maxPriority
      rw [hanswers.filesWithin, hfiles.countP_eq]

/-- Trees that mirror the same run have the same paths, and the directories of a path answer alike. -/
private theorem Mirrors.sameAnswers {root root' : Directory} {run : List Insertion} (h : root.Mirrors run)
    (h' : root'.Mirrors run) :
    (root.directories.map (·.path)).Perm (root'.directories.map (·.path)) ∧
      ∀ d ∈ root.directories, ∀ d' ∈ root'.directories, d.path = d'.path → d.SameAnswers d' := by
  constructor
  · rw [List.perm_ext_iff_of_nodup h.nodup_paths h'.nodup_paths]
    intro path?
    rw [h.mem_paths, h'.mem_paths]
  · -- both answer for the files of the run under the path that they share
    intro d hd d' hd' hsame
    obtain ⟨path, hpath, -⟩ := (h.mem_paths d.path).1 (List.mem_map_of_mem hd)
    have hanswers := h.answers d hd path hpath
    have hanswers' := h'.answers d' hd' path (hsame.symm.trans hpath)
    constructor
    · rw [hanswers.totalFiles, hanswers'.totalFiles]
    · intro priority
      rw [hanswers.countWith, hanswers'.countWith]
    · intro maxPriority
      rw [hanswers.filesWithin, hanswers'.filesWithin]

/-- Sealing changes neither the paths of the tree nor its files, and keeps it well-placed. -/
private theorem WellPlaced.sealTree {root : Directory} (h : root.WellPlaced) : root.sealTree.WellPlaced where
  root_path := by
    rw [← h.root_path]
    exact congrArg Entry.path (entry_sealTree root)
  nodup_paths := by
    rw [map_path_sealTree]
    exact h.nodup_paths
  placed := by
    intro e he
    rw [entries_sealTree, List.mem_map] at he
    -- whether an entry is placed does not depend on its being sealed
    obtain ⟨e, he, rfl⟩ := he
    exact h.placed e he

end Directory

namespace Builder

/-- The tree of a builder, as it stands or finalized. -/
def IsTreeOf (b : Builder) (tree : Directory) : Prop :=
  tree = b.root ∨ tree = b.finalize.root

/-- Finalizing changes nothing of what a run holds but that it takes no more. -/
theorem Holds.tree {run : List Insertion} {b : Builder} {tree : Directory} (h : Holds run b)
    (htree : b.IsTreeOf tree) :
    tree.WellPlaced ∧ (∀ path, some path ∈ tree.entries.map (·.path) ↔ Insertion.AsksFor run path) ∧
      tree.allFiles.Perm (Insertion.files run) := by
  rcases htree with rfl | rfl
  · exact ⟨h.wellPlaced, h.paths, h.files⟩
  · -- the run left the builder open, so finalizing seals the tree now
    have hroot : b.finalize.root = b.root.sealTree := by
      rw [finalize, h.notFinalized]
      rfl
    rw [hroot]
    refine ⟨h.wellPlaced.sealTree, ?_, ?_⟩
    · intro path
      rw [Directory.map_path_sealTree]
      exact h.paths path
    · rw [Directory.allFiles_sealTree]
      exact h.files

/-- The tree of a builder mirrors the run that the builder holds. -/
private theorem Holds.mirrors {run : List Insertion} {b : Builder} {tree : Directory} (h : Holds run b)
    (htree : b.IsTreeOf tree) : tree.Mirrors run := by
  obtain ⟨hplaced, hpaths, hfiles⟩ := h.tree htree
  exact hplaced.mirrors hpaths hfiles

/-- Every run of insertions into a new builder succeeds, and its tree, finalized or not, mirrors the run:
    it has exactly the directories that the run asks for, each in its place, and each answers for the files
    inserted below it. The order of the run has no influence on any answer. -/
theorem insertAll_mirrors (run : List Insertion) :
    ∃ b, empty.insertAll run = .ok b ∧ (∀ tree, b.IsTreeOf tree → tree.Mirrors run) ∧
      ∀ run', run'.Perm run → ∃ b', empty.insertAll run' = .ok b' ∧
        ∀ tree tree', b.IsTreeOf tree → b'.IsTreeOf tree' →
          (tree'.directories.map (·.path)).Perm (tree.directories.map (·.path)) ∧
          ∀ d' ∈ tree'.directories, ∀ d ∈ tree.directories, d'.path = d.path → d'.SameAnswers d := by
  obtain ⟨b, hrun, hholds⟩ := holds_empty.insertAll run
  refine ⟨b, hrun, fun tree => hholds.mirrors, fun run' hperm => ?_⟩
  obtain ⟨b', hrun', hholds'⟩ := holds_empty.insertAll run'
  refine ⟨b', hrun', fun tree tree' htree htree' => ?_⟩
  exact ((hholds'.mirrors htree').of_perm hperm).sameAnswers (hholds.mirrors htree)

end Builder

end JavaLint
