import JavaLint.Proofs.Results.Building
import JavaLint.Proofs.Results.Traversal
import JavaLint.Report.Basic

/-!
# Runs of sorted files

Files that are inserted in the order of their names are met in the same order when the tree is visited.
Every insertion adds to the end of a directory, and in a sorted run everything that is already there comes
before what is added, the directories that are made on the way included.

- `IsOrdered.of_modifyAt`, `IsOrdered.of_withChild`: when a change keeps a tree in order
- `IsBefore`: everything in the tree comes before the names of the next file
- `Builder.Makes.isOrdered`, `Builder.isOrdered_of_addFile`: what one insertion keeps
- `Builder.insertAll_follows`: the tree of a sorted run
-/

namespace JavaLint

namespace Directory

/-! ## Changes that keep the order -/

/-- A change that keeps the path of the directory at a position keeps the order if it keeps it in that
    directory. -/
theorem IsOrdered.of_modifyAt {root t : Directory} {f : Directory → Directory} {position : Position}
    (h : root.IsOrdered) (ht : root.at? position = some t) (hpath : (f t).path = t.path)
    (hnew : (f t).IsOrdered) : (root.modifyAt f position).IsOrdered := by
  induction position generalizing root with
  | nil =>
    obtain rfl := Option.some.inj (root.at?_nil.symm.trans ht)
    exact hnew
  | cons i rest ih =>
    obtain ⟨left, c, right, hchildren, hrest, hmodify⟩ := exists_split_of_at?_cons ht
    obtain ⟨hlabels, hbelow⟩ := isOrdered_iff.1 h
    have hc : c ∈ root.subdirectories := mem_subdirectories.2 (by simp [hchildren])
    rw [hmodify, isOrdered_iff]
    constructor
    · -- the child that is changed keeps its label
      have hlabel : label (.inr (c.modifyAt f rest)) = label (.inr c) := by
        simp only [label, nodeNames, (exists_modifyAt_eq hrest hpath).1, Sum.isRight_inr]
      rw [hchildren, List.map_append, List.map_cons] at hlabels
      rw [List.map_append, List.map_cons, hlabel]
      exact hlabels
    · -- the other children were not touched
      intro e he
      have hmem := mem_subdirectories.1 he
      rw [List.mem_append, List.mem_cons, Sum.inr.injEq] at hmem
      rcases hmem with hleft | rfl | hright
      · exact hbelow e (mem_subdirectories.2 (by simp [hchildren, hleft]))
      · exact ih (hbelow c hc) hrest
      · exact hbelow e (mem_subdirectories.2 (by simp [hchildren, hright]))

/-- A directory of an ordered tree is in order. -/
private theorem IsOrdered.of_mem {root d : Directory} (h : root.IsOrdered) (hd : d ∈ root.directories) :
    d.IsOrdered := by
  intro e he
  exact h e (mem_directories_trans hd he)

/-- A new directory has no children that could be out of order. -/
private theorem isOrdered_new (path : String) : (new path).IsOrdered := by
  rw [isOrdered_iff]
  simp [new, subdirectories]

/-- A child that comes after the other children of its directory keeps the order. -/
theorem IsOrdered.of_withChild {root t : Directory} {position : Position} {child : FileResults ⊕ Directory}
    (h : root.IsOrdered) (ht : root.at? position = some t) (hlast : ∀ x ∈ t.children, label x < label child)
    (hchild : ∀ d, child = .inr d → d.IsOrdered) :
    (root.modifyAt (withChild child) position).IsOrdered := by
  obtain ⟨hlabels, hbelow⟩ := isOrdered_iff.1 (h.of_mem (mem_directories_of_at? ht))
  refine h.of_modifyAt ht rfl (isOrdered_iff.2 ⟨?_, ?_⟩)
  · rw [List.pairwise_map] at hlabels ⊢
    rw [withChild, List.pairwise_append]
    exact ⟨hlabels, List.pairwise_singleton _ _, by simpa using hlast⟩
  · intro c hc
    rw [subdirectories, withChild, List.filterMap_append, List.mem_append] at hc
    -- a directory in the changed one was there before, or is the new child
    rcases hc with hc | hc
    · exact hbelow c hc
    · cases child with
      | inl file => simp at hc
      | inr d =>
        obtain rfl : c = d := by simpa using hc
        exact hchild c rfl

/-! ## Directories on the way to a file -/

/-- Everything in the tree comes before the given names, and no name in it is empty. -/
structure IsBefore (names : List String) (root : Directory) : Prop where
  plain : root.HasPlainPaths
  directories : ∀ path, some path ∈ root.entries.map (·.path) → pathNames path < names
  files : ∀ f ∈ root.allFiles, pathNames f.path < names

/-- Every child of a directory of such a tree comes before the names. -/
private theorem IsBefore.nodeNames_lt {root d : Directory} {names : List String} {x : FileResults ⊕ Directory}
    (h : root.IsBefore names) (hplaced : root.WellPlaced) (hd : d ∈ root.directories)
    (hx : x ∈ d.children) : nodeNames x < names := by
  cases x with
  | inl f => exact h.files f (List.mem_flatMap.2 ⟨d, hd, mem_files.2 hx⟩)
  | inr c =>
    have hc := mem_directories_of_mem_subdirectories hd (mem_subdirectories.2 hx)
    obtain ⟨q, hq⟩ := hplaced.exists_path hc
    rw [nodeNames, hq, Option.getD_some]
    exact h.directories q (mem_paths hc hq)

/-- Of equally many names, those that a list starts with come last among those before the list. -/
private theorem le_of_lt_of_isPrefix {a b c : List String} (hlt : a < c) (hunder : b <+: c)
    (hlength : a.length = b.length) : a ≤ b := by
  -- names that come after the start of the list come after the whole list
  by_contra hle
  obtain ⟨s, rfl⟩ := hunder
  have hgt := append_lt_append (not_le.1 hle) hlength.symm s []
  rw [List.append_nil] at hgt
  exact absurd (hlt.trans hgt) (lt_irrefl _)

/-- A new directory on the way to the given names comes after all that stands beside it. -/
private theorem IsBefore.label_lt {root t : Directory} {names : List String} {path : String}
    (h : root.IsBefore names) (hplaced : root.WellPlaced) (hmem : t ∈ root.directories)
    (htpath : t.path = some (parentPath path)) (hpath : IsPlain path) (hne : path ≠ "")
    (hunder : pathNames path <+: names) (hfresh : some path ∉ root.entries.map (·.path)) :
    ∀ x ∈ t.children, label x < label (.inr (new path)) := by
  intro x hx
  obtain ⟨name, hname⟩ := hplaced.exists_nodeNames_eq h.plain hmem hx
  obtain ⟨name', hname'⟩ := hpath.exists_pathNames_eq hne
  -- both stand in one directory, so they have equally many names
  have hlength : (nodeNames x).length = (pathNames path).length := by
    rw [hname, hname', nodeNames, htpath]
    simp
  have hle : nodeNames x ≤ pathNames path :=
    le_of_lt_of_isPrefix (h.nodeNames_lt hplaced hmem hx) hunder hlength
  rw [label_lt_iff]
  rcases lt_or_eq_of_le hle with hlt | heq
  · exact .inl hlt
  · cases x with
    | inl f => exact .inr ⟨heq, rfl, rfl⟩
    | inr c =>
      -- the path itself has no directory yet
      have hc := mem_directories_of_mem_subdirectories hmem (mem_subdirectories.2 hx)
      obtain ⟨q, hq⟩ := hplaced.exists_path hc
      rw [nodeNames, hq, Option.getD_some] at heq
      rw [← pathNames_injective heq] at hfresh
      exact absurd (mem_paths hc hq) hfresh

/-- A path on the way to the given names, and the paths that it lies in, come before the names. -/
private theorem isPlain_and_lt_of_asked {names : List String} {path q : String} (hpath : IsPlain path)
    (hunder : pathNames path <+: names) (hlength : (pathNames path).length < names.length)
    (hasked : q = path ∨ q ∈ ancestors path) :
    IsPlain q ∧ pathNames q <+: names ∧ (pathNames q).length < names.length := by
  rcases hasked with rfl | hancestor
  · exact ⟨hpath, hunder, hlength⟩
  · -- the empty path is its own ancestor
    by_cases hne : path = ""
    · rw [hne, ancestors_of_parent_empty parentPath_empty, List.mem_singleton] at hancestor
      rw [hancestor, ← hne]
      exact ⟨hpath, hunder, hlength⟩
    · obtain ⟨hplain, hshort, hshorter⟩ := hpath.of_mem_ancestors hne hancestor
      exact ⟨hplain, hshort.trans hunder, by omega⟩

end Directory

namespace Builder

open Directory

/-- Making the directories on the way to the given names keeps the order, and everything still comes before
    the names. -/
theorem Makes.isOrdered {b b' : Builder} {names : List String} {path : String} (h : Makes path b b')
    (hordered : b.root.IsOrdered) (hbefore : b.root.IsBefore names) (hpath : IsPlain path)
    (hunder : pathNames path <+: names) (hlength : (pathNames path).length < names.length) :
    b'.root.IsOrdered ∧ b'.root.IsBefore names := by
  induction h with
  | nothing => exact ⟨hordered, hbefore⟩
  | @one b' q position t before takes asked ih =>
    obtain ⟨hordered', hbefore'⟩ := ih
    obtain ⟨hplain, hq, hshort⟩ := isPlain_and_lt_of_asked hpath hunder hlength asked
    constructor
    · -- the directory that is made comes last where it is added
      refine hordered'.of_withChild takes.at_eq ?_ ?_
      · exact hbefore'.label_lt takes.isOpen.wellPlaced (mem_directories_of_at? takes.at_eq) takes.path_eq
          hplain takes.ne_empty hq takes.fresh
      · intro d hd
        obtain rfl := Sum.inr.inj hd
        exact isOrdered_new q
    · -- it is on the way to the names, so it comes before them; no file is new
      refine ⟨⟨?_, ?_⟩, ?_, ?_⟩
      · intro r hr
        rcases (takes.mem_paths_grow r).1 hr with rfl | hold
        · exact hplain
        · exact hbefore'.plain.directories r hold
      · exact fun f hf => hbefore'.plain.files f (takes.allFiles_grow.mem_iff.1 hf)
      · intro r hr
        rcases (takes.mem_paths_grow r).1 hr with rfl | hold
        · exact lt_of_isPrefix hq hshort
        · exact hbefore'.directories r hold
      · exact fun f hf => hbefore'.files f (takes.allFiles_grow.mem_iff.1 hf)

end Builder

namespace Directory

/-! ## The tree of a sorted run -/

/-- Sealing changes the label of no child. -/
private theorem map_label_sealTree (d : Directory) : d.sealTree.children.map label = d.children.map label := by
  rw [children_sealTree, List.map_map]
  refine List.map_congr_left fun child _ => ?_
  cases child with
  | inl f => rfl
  | inr c =>
    cases c
    rw [Function.comp_apply, Sum.map_inr, sealTree]
    rfl

/-- Sealing a tree keeps its order. -/
private theorem IsOrdered.sealTree {d : Directory} (h : d.IsOrdered) : d.sealTree.IsOrdered := by
  induction d using induction with
  | step d ih =>
    rw [isOrdered_iff] at h ⊢
    constructor
    · rw [map_label_sealTree]
      exact h.1
    · intro c hc
      rw [subdirectories_sealTree] at hc
      obtain ⟨e, he, rfl⟩ := List.mem_map.1 hc
      exact ih e he (h.2 e he)

/-- The tree follows the order of the files: a visit meets the files in this order, the violations are
    theirs one after another, and the directories, the root first, ascend name by name, as do the rows of
    every summary after the first. -/
structure Follows (files : List FileResults) (tree : Directory) : Prop where
  visitedFiles : tree.visitedFiles = files
  violations : tree.violations = files.flatMap (·.violations)
  directories : ∃ paths : List String, tree.directories.map (·.path) = paths.map some ∧
    paths.head? = some "" ∧ paths.Pairwise fun p q => pathNames p < pathNames q
  summary : ∀ maxPriority, ∃ paths : List String,
    ((Report.summarize maxPriority tree).drop 1).map (·.path) = paths.map some ∧
      paths.Pairwise fun p q => pathNames p < pathNames q

namespace WellPlaced

variable {tree : Directory}

/-- Directories that are listed in tree order ascend in an ordered tree. -/
private theorem exists_paths_ascending (h : tree.WellPlaced) (hplain : tree.HasPlainPaths)
    (hordered : tree.IsOrdered) {listed : List Directory} (hlisted : listed.Sublist tree.directories) :
    listed.map (·.path) = (listed.map (·.path.getD "")).map some ∧
      (listed.map (·.path.getD "")).Pairwise fun p q => pathNames p < pathNames q := by
  have hsorted := (h.pairwise_contents hplain hordered (self_mem_directories tree)).1
  constructor
  · rw [List.map_map]
    refine List.map_congr_left fun d hd => ?_
    obtain ⟨path, hpath⟩ := h.exists_path (hlisted.subset hd)
    rw [Function.comp_apply, hpath, Option.getD_some]
  · -- of two directories that a visit meets, the labels differ in the names
    have hall : tree.directories.Pairwise
        fun d e => pathNames (d.path.getD "") < pathNames (e.path.getD "") := by
      rw [← filterMap_getRight?_contents]
      refine List.Pairwise.filterMap _ ?_ (List.pairwise_map.1 hsorted)
      intro x y hlt d hd e he
      obtain rfl := Sum.getRight?_eq_some_iff.1 hd
      obtain rfl := Sum.getRight?_eq_some_iff.1 he
      rcases label_lt_iff.1 hlt with hnames | ⟨-, hfile, -⟩
      · exact hnames
      · cases hfile
    rw [List.pairwise_map]
    exact hall.sublist hlisted

/-- A visit of an ordered tree meets its files in order. -/
private theorem pairwise_visitedFiles (h : tree.WellPlaced) (hplain : tree.HasPlainPaths)
    (hordered : tree.IsOrdered) :
    tree.visitedFiles.Pairwise fun f g => pathNames f.path < pathNames g.path := by
  have hsorted := (h.pairwise_contents hplain hordered (self_mem_directories tree)).1
  refine List.Pairwise.filterMap _ ?_ (List.pairwise_map.1 hsorted)
  intro x y hlt f hf g hg
  obtain rfl := Sum.getLeft?_eq_some_iff.1 hf
  obtain rfl := Sum.getLeft?_eq_some_iff.1 hg
  -- two files differ in their names, since neither is a directory
  rcases label_lt_iff.1 hlt with hnames | ⟨-, -, hdirectory⟩
  · exact hnames
  · cases hdirectory

/-- An ordered tree with the given sorted files follows their order. -/
private theorem follows (h : tree.WellPlaced) (hplain : tree.HasPlainPaths) (hordered : tree.IsOrdered)
    {files : List FileResults} (hfiles : tree.allFiles.Perm files)
    (hsorted : files.Pairwise fun f g => pathNames f.path < pathNames g.path) : tree.Follows files := by
  -- two sorted lists of the same files are the same list
  have hvisited : tree.visitedFiles = files := by
    refine List.Perm.eq_of_pairwise ?_ (h.pairwise_visitedFiles hplain hordered) hsorted
      (tree.visitedFiles_perm.trans hfiles)
    intro f g _ _ hfg hgf
    exact absurd (hfg.trans hgf) (lt_irrefl _)
  constructor
  · exact hvisited
  · rw [violations_eq_flatMap, hvisited]
  · obtain ⟨hpaths, hascending⟩ := h.exists_paths_ascending hplain hordered (List.Sublist.refl _)
    refine ⟨_, hpaths, ?_, hascending⟩
    rw [directories_eq, List.map_cons, List.head?_cons, h.root_path, Option.getD_some]
  · intro maxPriority
    -- a summary leaves directories out and keeps the order of the others
    have hlisted : ((tree.directories.drop 1).filter (·.containsFiles)).Sublist tree.directories :=
      List.filter_sublist.trans (List.drop_sublist _ _)
    obtain ⟨hpaths, hascending⟩ := h.exists_paths_ascending hplain hordered hlisted
    refine ⟨_, ?_, hascending⟩
    rw [← hpaths, Report.summarize, List.drop_one, List.tail_cons, List.map_map]
    rfl

end WellPlaced

end Directory

namespace Builder

/-- A file that comes after everything in the tree keeps the order. -/
theorem isOrdered_of_addFile {b b' : Builder} {file : FileResults} (h : b.IsOpen) (hordered : b.root.IsOrdered)
    (hbefore : b.root.IsBefore (pathNames file.path)) (hplain : IsPlain file.path) (hne : file.path ≠ "")
    (hadd : b.addFile file = .ok b') : b'.root.IsOrdered := by
  obtain ⟨name, hname⟩ := hplain.exists_pathNames_eq hne
  have hunder : pathNames (parentPath file.path) <+: pathNames file.path := by
    rw [hname]
    exact List.prefix_append _ _
  have hlength : (pathNames (parentPath file.path)).length < (pathNames file.path).length := by
    simp [hname]
  obtain ⟨b₁, position, t, hadd₁, hmakes, ht, htpath⟩ := addFile_spec h file
  obtain rfl := Except.ok.inj (hadd₁.symm.trans hadd)
  obtain ⟨hordered₁, hbefore₁⟩ := hmakes.isOrdered hordered hbefore (hplain.parent hne) hunder hlength
  have hplaced₁ := (hmakes.isOpen h).wellPlaced
  -- the file is the last child of its directory
  have hattached : (b₁.root.modifyAt (Directory.withChild (.inl file)) position).IsOrdered := by
    refine hordered₁.of_withChild ht ?_ nofun
    intro x hx
    exact Directory.label_lt_iff.2 (.inl (hbefore₁.nodeNames_lt hplaced₁ (Directory.mem_directories_of_at? ht) hx))
  -- counting it changes no child
  have hchild := Directory.at?_modifyAt_self (f := Directory.withChild (.inl file)) ht
  have hcounted := Directory.isOrdered_iff.1 (hattached.of_mem (Directory.mem_directories_of_at? hchild))
  exact hattached.of_modifyAt hchild rfl (Directory.isOrdered_iff.2 hcounted)

/-- A run of files asks for the root and for the ancestors of the files. -/
private theorem asksFor_map_file {files : List FileResults} {path : String} :
    Insertion.AsksFor (files.map .file) path ↔ path = "" ∨ ∃ f ∈ files, path ∈ ancestors f.path := by
  simp [Insertion.AsksFor, Insertion.path]

/-- A tree that holds files without empty names has no empty names. -/
private theorem hasPlainPaths_of_files {tree : Directory} {files : List FileResults}
    (hplain : ∀ f ∈ files, IsPlain f.path ∧ f.path ≠ "")
    (hpaths : ∀ path, some path ∈ tree.entries.map (·.path) ↔ Insertion.AsksFor (files.map .file) path)
    (hfiles : tree.allFiles.Perm (Insertion.files (files.map .file))) : tree.HasPlainPaths := by
  rw [files_map_file] at hfiles
  constructor
  · intro path hpath
    rw [hpaths, asksFor_map_file] at hpath
    -- every directory is the root or lies on the way to a file
    rcases hpath with rfl | ⟨f, hf, hancestor⟩
    · exact isPlain_empty
    · exact ((hplain f hf).1.of_mem_ancestors (hplain f hf).2 hancestor).1
  · intro f hf
    exact hplain f (hfiles.mem_iff.1 hf)

/-- If all files come before some names, so does everything in the tree that holds them. -/
private theorem Holds.isBefore {done : List FileResults} {b : Builder} (h : Holds (done.map .file) b)
    (hplain : ∀ f ∈ done, IsPlain f.path ∧ f.path ≠ "") {names : List String} (hne : names ≠ [])
    (hlt : ∀ f ∈ done, pathNames f.path < names) : b.root.IsBefore names := by
  have hfiles := h.files
  rw [files_map_file] at hfiles
  refine ⟨hasPlainPaths_of_files hplain h.paths h.files, ?_, ?_⟩
  · intro path hpath
    rw [h.paths, asksFor_map_file] at hpath
    rcases hpath with rfl | ⟨f, hf, hancestor⟩
    · rw [pathNames_empty]
      exact lt_of_isPrefix List.nil_prefix (List.length_pos_iff.2 hne)
    · -- an ancestor comes before the file, and the file before the names
      obtain ⟨-, hunder, hshorter⟩ := (hplain f hf).1.of_mem_ancestors (hplain f hf).2 hancestor
      exact (lt_of_isPrefix hunder hshorter).trans (hlt f hf)
  · intro f hf
    exact hlt f (hfiles.mem_iff.1 hf)

/-- A sorted run succeeds and keeps the order of the tree. -/
private theorem Holds.insertAll_isOrdered {done rest : List FileResults} {b : Builder}
    (h : Holds (done.map .file) b) (hordered : b.root.IsOrdered)
    (hplain : ∀ f ∈ done ++ rest, IsPlain f.path ∧ f.path ≠ "")
    (hsorted : (done ++ rest).Pairwise fun f g => pathNames f.path < pathNames g.path) :
    ∃ b', b.insertAll (rest.map .file) = .ok b' ∧ Holds ((done ++ rest).map .file) b' ∧
      b'.root.IsOrdered := by
  -- what was inserted before the run grows by its first file
  induction rest generalizing done b with
  | nil => exact ⟨b, rfl, by rwa [List.append_nil], hordered⟩
  | cons file rest ih =>
    obtain ⟨hdone, hrest⟩ := List.forall_mem_append.1 hplain
    obtain ⟨hfile, hne⟩ := hrest file List.mem_cons_self
    have hlt : ∀ f ∈ done, pathNames f.path < pathNames file.path := by
      intro f hf
      exact (List.pairwise_append.1 hsorted).2.2 f hf file List.mem_cons_self
    have hnames : pathNames file.path ≠ [] := by
      intro hnil
      exact hne (pathNames_injective (hnil.trans pathNames_empty.symm))
    obtain ⟨b₁, hinsert, h₁⟩ := h.insert (.file file)
    -- the files before it are smaller, and with them all that the tree holds
    have hordered₁ : b₁.root.IsOrdered :=
      isOrdered_of_addFile h.toIsOpen hordered (h.isBefore hdone hnames hlt) hfile hne hinsert
    have hsame : done ++ file :: rest = (done ++ [file]) ++ rest := by simp
    rw [hsame] at hplain hsorted ⊢
    obtain ⟨b₂, hrun, h₂, hordered₂⟩ := ih (by simpa using h₁) hordered₁ hplain hsorted
    refine ⟨b₂, ?_, h₂, hordered₂⟩
    rw [List.map_cons, Builder.insertAll, hinsert]
    exact hrun

/-- Files whose paths have no empty name and ascend name by name are inserted without an error, and the
    tree, finalized or not, follows their order. -/
theorem insertAll_follows (files : List FileResults)
    (hnames : ∀ f ∈ files, "" ∉ Text.split '/' f.path)
    (hsorted : files.Pairwise fun f g => pathNames f.path < pathNames g.path) :
    ∃ b, empty.insertAll (files.map .file) = .ok b ∧ ∀ tree, b.IsTreeOf tree → tree.Follows files := by
  have hplain : ∀ f ∈ files, IsPlain f.path ∧ f.path ≠ "" := by
    intro f hf
    have hne : f.path ≠ "" := by
      intro hempty
      have hmem := hnames f hf
      rw [hempty] at hmem
      exact hmem (by simp [Text.split, Text.splitFrom])
    refine ⟨?_, hne⟩
    rw [IsPlain, pathNames, if_neg hne]
    exact hnames f hf
  have hstart : Holds (([] : List FileResults).map .file) empty := holds_empty
  have hempty : empty.root.IsOrdered := Directory.isOrdered_new ""
  obtain ⟨b, hrun, h, hordered⟩ := hstart.insertAll_isOrdered hempty hplain hsorted
  refine ⟨b, hrun, fun tree htree => ?_⟩
  obtain ⟨hplaced, hpaths, hfiles⟩ := h.tree htree
  -- finalizing keeps the order
  have htreeOrdered : tree.IsOrdered := by
    rcases htree with rfl | rfl
    · exact hordered
    · rw [finalize, h.notFinalized]
      exact hordered.sealTree
  have hplainPaths := hasPlainPaths_of_files hplain hpaths hfiles
  rw [List.nil_append, files_map_file] at hfiles
  exact hplaced.follows hplainPaths htreeOrdered hfiles hsorted

/-- Files in ascending order, although `a-b/X` comes before `a/X` character by character. -/
def ascendingFiles : List FileResults :=
  ["Z", "a/X", "a/b", "a/b/Y", "a-b/X"].map fun path =>
    ⟨path, [⟨.duplicateImport, none, none, some path⟩]⟩

/-- Such files are met in the order in which they were inserted. -/
theorem insertAll_follows_ascendingFiles :
    (∀ f ∈ ascendingFiles, "" ∉ Text.split '/' f.path) ∧
      (ascendingFiles.Pairwise fun f g => pathNames f.path < pathNames g.path) ∧
      ∃ b, empty.insertAll (ascendingFiles.map .file) = .ok b ∧ b.finalize.root.Follows ascendingFiles := by
  have hnames : ∀ f ∈ ascendingFiles, "" ∉ Text.split '/' f.path := by decide +kernel
  have hsorted : ascendingFiles.Pairwise fun f g => pathNames f.path < pathNames g.path := by
    decide +kernel
  obtain ⟨b, hrun, hfollows⟩ := insertAll_follows ascendingFiles hnames hsorted
  exact ⟨hnames, hsorted, b, hrun, hfollows _ (.inr rfl)⟩

end Builder

end JavaLint
