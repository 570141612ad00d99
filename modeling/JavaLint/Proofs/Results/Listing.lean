import JavaLint.Proofs.Results.Building

/-!
# What a directory lists

A directory lists the files that were inserted into it in the order of their insertion, whatever was
inserted elsewhere in between. A directory that is made on the way to a file starts empty, and a file
changes no directory but its own.

- `filesIn`: of a list of files those directly in a directory
- `Builder.Makes.files`: the files of the directories after some were made
- `ListsInOrder`: every directory lists its files in the order of a list
- `Builder.Holds.listsInOrder_insert`, `Builder.listsInOrder_insertAll`: one insertion and a run keep it
-/

namespace JavaLint

namespace Directory

/-- The files that lie directly in the given directory. -/
def filesIn (path : String) (files : List FileResults) : List FileResults :=
  files.filter fun f => parentPath f.path == path

/-- One more file is listed last in its own directory and nowhere else. -/
private theorem filesIn_append_singleton (path : String) (files : List FileResults) (file : FileResults) :
    filesIn path (files ++ [file]) =
      filesIn path files ++ if parentPath file.path = path then [file] else [] := by
  simp [filesIn, List.filter_append, List.filter_singleton]

/-- Every directory lists those of the files that lie directly in it, in their order. -/
def ListsInOrder (files : List FileResults) (root : Directory) : Prop :=
  ∀ e ∈ root.entries, ∀ path, e.path = some path → e.files = filesIn path files

/-! ## One insertion -/

/-- A file that is added to its directory comes last there and nowhere else. -/
private theorem ListsInOrder.of_addFile {root counted : Directory} {files : List FileResults} {file : FileResults}
    (hlists : root.ListsInOrder files)
    (hperm : counted.entries.Perm (root.entries.map
      (Entry.updateAt (parentPath file.path) (Entry.countOne ∘ Entry.add (.inl file))))) :
    counted.ListsInOrder (files ++ [file]) := by
  intro e he q hq
  rw [hperm.mem_iff, List.mem_map] at he
  obtain ⟨old, hold, rfl⟩ := he
  rw [filesIn_append_singleton]
  -- the entry of the directory of the file gets it; every other entry stays as it is
  by_cases hat : old.path = some (parentPath file.path)
  · rw [Entry.updateAt, if_pos hat] at hq ⊢
    obtain rfl : parentPath file.path = q := Option.some.inj (hat.symm.trans hq)
    rw [if_pos rfl, ← hlists old hold _ hat]
    rfl
  · rw [Entry.updateAt, if_neg hat] at hq ⊢
    have hother : parentPath file.path ≠ q := by
      rintro rfl
      exact hat hq
    rw [if_neg hother, List.append_nil]
    exact hlists old hold q hq

/-- Sealing changes no list. -/
private theorem ListsInOrder.sealTree {root : Directory} {files : List FileResults}
    (h : root.ListsInOrder files) : root.sealTree.ListsInOrder files := by
  intro e he
  rw [entries_sealTree, List.mem_map] at he
  obtain ⟨old, hold, rfl⟩ := he
  exact h old hold

end Directory

/-! ## Runs -/

namespace Builder

open Directory

/-- A directory that is made starts empty, and those that were there keep their files. -/
theorem Makes.files {b b' : Builder} {path : String} (h : Makes path b b') :
    ∀ e ∈ b'.root.entries, (e.files = [] ∧ e.path ∉ b.root.entries.map (·.path)) ∨
      ∃ old ∈ b.root.entries, old.path = e.path ∧ old.files = e.files := by
  induction h with
  | nothing => exact fun e he => .inr ⟨e, he, rfl, rfl⟩
  | @one b' q position t before takes asked ih =>
    intro e he
    rw [takes.entries_grow.2.mem_iff, List.mem_append, List.mem_singleton, List.mem_map] at he
    rcases he with rfl | ⟨e₁, he₁, rfl⟩
    · exact .inl ⟨rfl, fun hmem => takes.fresh ((before.mem_paths q).1 hmem)⟩
    · -- a folder that is added to an entry changes neither its path nor its files
      have hkept : (Entry.updateAt (parentPath q) (Entry.add (.inr (new q))) e₁).path = e₁.path ∧
          (Entry.updateAt (parentPath q) (Entry.add (.inr (new q))) e₁).files = e₁.files := by
        rw [Entry.updateAt]
        split <;> exact ⟨rfl, rfl⟩
      rw [hkept.1, hkept.2]
      exact ih e₁ he₁

/-- Making the directories of a path keeps the lists, if each listed file has its directory already. -/
private theorem Makes.listsInOrder {b b' : Builder} {files : List FileResults} {path : String} (h : Makes path b b')
    (hlists : b.root.ListsInOrder files)
    (hparents : ∀ f ∈ files, some (parentPath f.path) ∈ b.root.entries.map (·.path)) :
    b'.root.ListsInOrder files := by
  intro e he q hq
  rcases h.files e he with ⟨hempty, hnew⟩ | ⟨old, hold, hpath, hfiles⟩
  · -- a directory that was just made is not the directory of any listed file
    have hnone : filesIn q files = [] := by
      rw [filesIn, List.filter_eq_nil_iff]
      intro f hf hin
      rw [hq, ← beq_iff_eq.1 hin] at hnew
      exact hnew (hparents f hf)
    rw [hempty, hnone]
  · rw [← hfiles]
    exact hlists old hold q (hpath.trans hq)

/-- The directory of a file that was inserted is in the tree. -/
private theorem Holds.parentPath_mem {run : List Insertion} {b : Builder} (h : Holds run b) {f : FileResults}
    (hf : f ∈ Insertion.files run) : some (parentPath f.path) ∈ b.root.entries.map (·.path) := by
  obtain ⟨insertion, hmem, hresults⟩ := List.mem_filterMap.1 hf
  cases insertion with
  | directory path => cases hresults
  | file results =>
    obtain rfl := Option.some.inj hresults
    -- a file asks for its parent
    exact (h.paths _).2 (.inr (.inr ⟨_, hmem, mem_ancestors.2 (.inl rfl)⟩))

/-- A directory lists the files in the order of their insertion also after the next one. -/
theorem Holds.listsInOrder_insert {run : List Insertion} {b b' : Builder} {insertion : Insertion}
    (h : Holds run b) (hlists : b.root.ListsInOrder (Insertion.files run))
    (hinsert : b.insert insertion = .ok b') :
    b'.root.ListsInOrder (Insertion.files (run ++ [insertion])) := by
  rw [Insertion.files_append]
  cases insertion with
  | directory path =>
    obtain ⟨b₁, position, t, hadd, hmakes, -⟩ := addDirectory_spec h.toIsOpen path
    obtain rfl := Except.ok.inj (hadd.symm.trans hinsert)
    rw [Insertion.results?, Option.toList_none, List.append_nil]
    -- only directories are made
    exact hmakes.listsInOrder hlists fun f => h.parentPath_mem
  | file results =>
    obtain ⟨b₁, position, t, hadd, hmakes, ht, htpath⟩ := addFile_spec h.toIsOpen results
    obtain rfl := Except.ok.inj (hadd.symm.trans hinsert)
    -- directories are made first, and then the file is added to one of them
    have hperm := (entries_withFile (hmakes.isOpen h.toIsOpen) ht htpath).2
    exact (hmakes.listsInOrder hlists fun f => h.parentPath_mem).of_addFile hperm

/-- A directory lists the files of a run in the order of the run. -/
private theorem Holds.listsInOrder_insertAll {done : List Insertion} {b b' : Builder} (h : Holds done b)
    (hlists : b.root.ListsInOrder (Insertion.files done)) {run : List Insertion}
    (hrun : b.insertAll run = .ok b') : b'.root.ListsInOrder (Insertion.files (done ++ run)) := by
  -- what was inserted before the run grows by its first insertion
  induction run generalizing done b with
  | nil =>
    obtain rfl := Except.ok.inj hrun
    rwa [List.append_nil]
  | cons insertion rest ih =>
    obtain ⟨b₁, hinsert, h₁⟩ := h.insert insertion
    rw [Builder.insertAll, hinsert] at hrun
    have hrest := ih h₁ (h.listsInOrder_insert hlists hinsert) hrun
    rwa [List.append_assoc] at hrest

/-- The tree of a run, finalized or not, lists in each directory the files of the run that lie directly in
    it, in the order of the run. -/
theorem listsInOrder_insertAll {run : List Insertion} {b : Builder} {tree : Directory}
    (hrun : empty.insertAll run = .ok b) (htree : b.IsTreeOf tree) :
    tree.ListsInOrder (Insertion.files run) := by
  -- the root of a new builder lists nothing
  have hempty : empty.root.ListsInOrder (Insertion.files []) := by
    intro e he path hpath
    rw [empty, entries_new, List.mem_singleton] at he
    rw [he]
    rfl
  have hlists := holds_empty.listsInOrder_insertAll hempty hrun
  rw [List.nil_append] at hlists
  rcases htree with rfl | rfl
  · exact hlists
  · rw [finalize]
    split
    · exact hlists
    · exact hlists.sealTree

end Builder

end JavaLint
