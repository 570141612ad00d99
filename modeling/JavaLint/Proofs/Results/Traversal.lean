import JavaLint.Proofs.Results.Names
import JavaLint.Proofs.Results.Placement
import Mathlib.Data.Prod.Lex

/-!
# Visiting a results tree

A visit meets a directory, and then its files and directories in order, each directory with all that is in
it. What a tree answers in tree order is read off this visit. If the children of every directory are in the
order of their names, so is the whole visit.

- `contents`: everything in the tree, in the order of the visit
- `filterMap_getRight?_contents`, `violations_eq_flatMap`: the visit and the answers of the tree
- `label`, `IsOrdered`: the order of the children of a directory
- `WellPlaced.pairwise_contents`: a visit of an ordered tree meets everything in order
-/

namespace JavaLint.Directory

/-! ## The visit -/

mutual

/-- A directory and everything in it, depth first, with children in order. -/
def contents : Directory → List (FileResults ⊕ Directory)
  | d@⟨_, _, _, children⟩ => .inr d :: contentsIn children

/-- Everything at and below a list of children. -/
def contentsIn : List (FileResults ⊕ Directory) → List (FileResults ⊕ Directory)
  | [] => []
  | .inl f :: rest => .inl f :: contentsIn rest
  | .inr d :: rest => d.contents ++ contentsIn rest

end

/-- A child and everything in it. -/
def contentsOf : FileResults ⊕ Directory → List (FileResults ⊕ Directory)
  | .inl f => [.inl f]
  | .inr d => d.contents

/-- Children are visited one after another. -/
private theorem contentsIn_eq_flatMap (children : List (FileResults ⊕ Directory)) :
    contentsIn children = children.flatMap contentsOf := by
  induction children with
  | nil => rfl
  | cons child rest ih => cases child <;> simp [contentsIn, contentsOf, ih]

/-- A visit meets the directory first, and then what is in its children. -/
private theorem contents_eq (d : Directory) : d.contents = .inr d :: d.children.flatMap contentsOf := by
  obtain ⟨path, fileCount, isSealed, children⟩ := d
  rw [contents, contentsIn_eq_flatMap]

/-- The files that a visit meets, in order. -/
def visitedFiles (d : Directory) : List FileResults :=
  d.contents.filterMap Sum.getLeft?

mutual

/-- The visit meets the directories in tree order. -/
theorem filterMap_getRight?_contents : ∀ d : Directory,
    d.contents.filterMap Sum.getRight? = d.directories
  | ⟨path, fileCount, isSealed, children⟩ => by
    simp [contents, directories, filterMap_getRight?_contentsIn children]

/-- The same for a list of children. -/
theorem filterMap_getRight?_contentsIn : ∀ children : List (FileResults ⊕ Directory),
    (contentsIn children).filterMap Sum.getRight? = directoriesIn children
  | [] => rfl
  | .inl f :: rest => by
    simp [contentsIn, directoriesIn, filterMap_getRight?_contentsIn rest, List.filterMap_cons]
  | .inr d :: rest => by
    simp [contentsIn, directoriesIn, filterMap_getRight?_contents d,
      filterMap_getRight?_contentsIn rest]

end

mutual

/-- The violations of a tree are those of the files that a visit meets. -/
theorem violations_eq_flatMap : ∀ d : Directory,
    d.violations = d.visitedFiles.flatMap (·.violations)
  | ⟨path, fileCount, isSealed, children⟩ => by
    simp [violations, visitedFiles, contents, violationsIn_eq_flatMap children, List.filterMap_cons]

/-- The same for a list of children. -/
theorem violationsIn_eq_flatMap : ∀ children : List (FileResults ⊕ Directory),
    violationsIn children = ((contentsIn children).filterMap Sum.getLeft?).flatMap (·.violations)
  | [] => rfl
  | .inl f :: rest => by
    simp [violationsIn, contentsIn, violationsIn_eq_flatMap rest]
  | .inr d :: rest => by
    simp [violationsIn, contentsIn, violationsIn_eq_flatMap rest, violations_eq_flatMap d, visitedFiles]

end

mutual

/-- The visit meets all files of the tree. -/
theorem visitedFiles_perm : ∀ d : Directory, d.visitedFiles.Perm d.allFiles
  | ⟨path, fileCount, isSealed, children⟩ => by
    simpa [visitedFiles, contents, allFiles, directories, files, List.filterMap_cons] using
      visitedFilesIn_perm children

/-- Among children, the visit meets the files in them and those in the directories below. -/
theorem visitedFilesIn_perm : ∀ children : List (FileResults ⊕ Directory),
    ((contentsIn children).filterMap Sum.getLeft?).Perm
      (children.filterMap Sum.getLeft? ++ (directoriesIn children).flatMap files)
  | [] => .refl _
  | .inl f :: rest => by
    simpa [contentsIn, directoriesIn] using (visitedFilesIn_perm rest).cons f
  | .inr d :: rest => by
    have hboth := (visitedFiles_perm d).append (visitedFilesIn_perm rest)
    -- the files of the directory move behind the ones of the other children
    have hmove := hboth.trans (List.perm_append_comm_assoc _ _ _)
    simpa [contentsIn, directoriesIn, visitedFiles, allFiles, List.filterMap_cons] using hmove

end

/-! ## The order of names -/

/-- The names of a file or directory of the tree. -/
def nodeNames : FileResults ⊕ Directory → List String
  | .inl f => pathNames f.path
  | .inr d => pathNames (d.path.getD "")

/-- What a file or directory is ordered by: its names, with a file before the directory of the same path. -/
def label (node : FileResults ⊕ Directory) : List String ×ₗ Bool :=
  toLex (nodeNames node, node.isRight)

/-- Names decide first; of equal names the file comes first. -/
theorem label_lt_iff {x y : FileResults ⊕ Directory} :
    label x < label y ↔ nodeNames x < nodeNames y ∨
      nodeNames x = nodeNames y ∧ x.isRight = false ∧ y.isRight = true := by
  rw [label, label, Prod.Lex.toLex_lt_toLex, Bool.lt_iff]

/-- The children of every directory are in order. -/
def IsOrdered (root : Directory) : Prop :=
  ∀ d ∈ root.directories, (d.children.map label).Pairwise (· < ·)

/-- A directory is in order if its children are and the directories among them are in order. -/
theorem isOrdered_iff {d : Directory} :
    d.IsOrdered ↔ (d.children.map label).Pairwise (· < ·) ∧ ∀ c ∈ d.subdirectories, c.IsOrdered := by
  simp only [IsOrdered]
  rw [directories_eq, List.forall_mem_cons, List.forall_mem_flatMap]

/-- No name in the tree is empty. -/
structure HasPlainPaths (root : Directory) : Prop where
  directories : ∀ path, some path ∈ root.entries.map (·.path) → IsPlain path
  files : ∀ f ∈ root.allFiles, IsPlain f.path ∧ f.path ≠ ""

/-- What is in a child of an ordered directory comes before what is in a later one. -/
private theorem label_lt_of_mem_contentsOf {x y a b : FileResults ⊕ Directory} (hlt : label x < label y)
    (hlength : (nodeNames x).length = (nodeNames y).length) (ha : a ∈ contentsOf x)
    (hxa : nodeNames x <+: nodeNames a) (hyb : nodeNames y <+: nodeNames b) (hle : label y ≤ label b) :
    label a < label b := by
  rcases label_lt_iff.1 hlt with hnames | ⟨-, hfile, -⟩
  · -- equally many names differ already, whatever follows them
    obtain ⟨s, hs⟩ := hxa
    obtain ⟨t, ht⟩ := hyb
    rw [label_lt_iff, ← hs, ← ht]
    exact .inl (append_lt_append hnames hlength s t)
  · -- the earlier child is a file, so there is nothing else in it
    cases x with
    | inl f =>
      rw [List.mem_singleton.1 ha]
      exact lt_of_lt_of_le hlt hle
    | inr c => cases hfile

namespace WellPlaced

variable {root d : Directory} {x : FileResults ⊕ Directory}

/-- What stands directly in a directory has one name more. -/
theorem exists_nodeNames_eq (h : root.WellPlaced) (hplain : root.HasPlainPaths)
    (hd : d ∈ root.directories) (hx : x ∈ d.children) :
    ∃ name, nodeNames x = nodeNames (.inr d) ++ [name] := by
  cases x with
  | inl f =>
    have hf : f ∈ d.files := mem_files.2 hx
    -- its path has a name more than its parent, and the parent is the directory
    obtain ⟨hpath, hne⟩ := hplain.files f (List.mem_flatMap.2 ⟨d, hd, hf⟩)
    obtain ⟨name, hnames⟩ := hpath.exists_pathNames_eq hne
    exact ⟨name, by simp only [nodeNames, hnames, h.path_eq_of_mem_files hd hf, Option.getD_some]⟩
  | inr c =>
    have hc : c ∈ d.subdirectories := mem_subdirectories.2 hx
    obtain ⟨q, hq, hne, hparent⟩ := h.exists_path_of_mem_subdirectories hd hc
    have hmem := mem_paths (mem_directories_of_mem_subdirectories hd hc) hq
    obtain ⟨name, hnames⟩ := (hplain.directories q hmem).exists_pathNames_eq hne
    exact ⟨name, by simp only [nodeNames, hq, hparent, hnames, Option.getD_some]⟩

/-- A visit of an ordered tree meets everything in order. -/
theorem pairwise_contents (h : root.WellPlaced) (hplain : root.HasPlainPaths) (hordered : root.IsOrdered)
    (hd : d ∈ root.directories) :
    (d.contents.map label).Pairwise (· < ·) ∧
      ∀ x ∈ d.contents, nodeNames (.inr d) <+: nodeNames x := by
  induction d using induction with
  | step d ih =>
    -- what is in a child starts with the names of the child and does not come before it
    have hchild : ∀ x ∈ d.children, ((contentsOf x).map label).Pairwise (· < ·) ∧
        ∀ a ∈ contentsOf x, nodeNames x <+: nodeNames a ∧ label x ≤ label a := by
      intro x hx
      cases x with
      | inl f => simp [contentsOf]
      | inr c =>
        have hc : c ∈ d.subdirectories := mem_subdirectories.2 hx
        obtain ⟨hsorted, hunder⟩ := ih c hc (mem_directories_of_mem_subdirectories hd hc)
        refine ⟨hsorted, fun a ha => ⟨hunder a ha, ?_⟩⟩
        rw [contents_eq, List.map_cons, List.pairwise_cons] at hsorted
        rw [contentsOf, contents_eq] at ha
        rcases List.mem_cons.1 ha with rfl | hbelow
        · exact le_refl _
        · exact le_of_lt (hsorted.1 _ (List.mem_map_of_mem hbelow))
    -- everything below the directory has more names and starts with those of the directory
    have hunder : ∀ a ∈ d.children.flatMap contentsOf, nodeNames (.inr d) <+: nodeNames a ∧
        (nodeNames (.inr d)).length < (nodeNames a).length := by
      intro a ha
      obtain ⟨x, hx, hax⟩ := List.mem_flatMap.1 ha
      obtain ⟨name, hname⟩ := h.exists_nodeNames_eq hplain hd hx
      obtain ⟨t, ht⟩ := ((hchild x hx).2 a hax).1
      rw [← ht, hname, List.append_assoc]
      exact ⟨List.prefix_append _ _, by simp⟩
    rw [contents_eq]
    refine ⟨?_, ?_⟩
    · rw [List.map_cons, List.pairwise_cons, List.pairwise_map, List.pairwise_flatMap]
      refine ⟨?_, ?_, ?_⟩
      · intro l hl
        obtain ⟨a, ha, rfl⟩ := List.mem_map.1 hl
        exact label_lt_iff.2 (.inl (lt_of_isPrefix (hunder a ha).1 (hunder a ha).2))
      · intro x hx
        exact List.pairwise_map.1 (hchild x hx).1
      · -- two children: the earlier one with all in it comes before the later one
        have hsorted := List.pairwise_map.1 (hordered d hd)
        refine hsorted.imp_of_mem fun {x y} hx hy hlt a ha b hb => ?_
        obtain ⟨xname, hxname⟩ := h.exists_nodeNames_eq hplain hd hx
        obtain ⟨yname, hyname⟩ := h.exists_nodeNames_eq hplain hd hy
        have hlength : (nodeNames x).length = (nodeNames y).length := by
          simp [hxname, hyname]
        obtain ⟨hyb, hle⟩ := (hchild y hy).2 b hb
        exact label_lt_of_mem_contentsOf hlt hlength ha ((hchild x hx).2 a ha).1 hyb hle
    · intro x hx
      rcases List.mem_cons.1 hx with rfl | hbelow
      · exact List.prefix_rfl
      · exact (hunder x hbelow).1

end WellPlaced

end JavaLint.Directory
