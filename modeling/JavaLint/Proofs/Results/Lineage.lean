import JavaLint.Results.Builder

/-!
# The lineage of a path

A path lies in the path before its last slash, that one in the path before its own last slash, and so on
down to the empty path. Nothing is assumed of a path: it may start or end with slashes or repeat them.

- `ancestors`: the paths that a path lies in, the nearest first
- `inside`: a path is the given directory or lies in it
- `mem_ancestors`: an ancestor is the parent or an ancestor of the parent
-/

namespace JavaLint

/-! ## Ancestors -/

/-- The empty path lies in itself. -/
theorem parentPath_empty : parentPath "" = "" := by
  rfl

/-- A path with a parent other than the empty path is not empty. -/
theorem ne_empty_of_parentPath {path : String} (h : parentPath path ≠ "") : path ≠ "" := by
  intro hempty
  rw [hempty, parentPath_empty] at h
  exact h rfl

/-- The paths that a path lies in, the nearest first and the empty path last. -/
def ancestors (path : String) : List String :=
  if _h : parentPath path = "" then [""] else parentPath path :: ancestors (parentPath path)
termination_by path.length
decreasing_by exact length_parentPath_lt (ne_empty_of_parentPath _h)

/-- A path with an empty parent lies in the empty path only. -/
theorem ancestors_of_parent_empty {path : String} (h : parentPath path = "") :
    ancestors path = [""] := by
  rw [ancestors, dif_pos h]

/-- Any other path lies in its parent, and in what the parent lies in. -/
theorem ancestors_of_parent_ne {path : String} (h : parentPath path ≠ "") :
    ancestors path = parentPath path :: ancestors (parentPath path) := by
  rw [ancestors, dif_neg h]

/-- An ancestor is the parent or an ancestor of the parent. -/
theorem mem_ancestors {directory path : String} :
    directory ∈ ancestors path ↔
      directory = parentPath path ∨ directory ∈ ancestors (parentPath path) := by
  by_cases h : parentPath path = ""
  · -- the empty path is its own only ancestor, so both sides say the same
    have hroot : ancestors "" = [""] := ancestors_of_parent_empty parentPath_empty
    rw [ancestors_of_parent_empty h, h, hroot]
    simp
  · rw [ancestors_of_parent_ne h, List.mem_cons]

/-- Every path lies in the empty one. -/
theorem empty_mem_ancestors (path : String) : "" ∈ ancestors path := by
  fun_induction ancestors path with
  | case1 path hempty => exact List.mem_singleton_self ""
  | case2 path hparent ih => exact List.mem_cons_of_mem _ ih

/-- A path is no longer than the paths that lie in it. -/
theorem length_le_of_mem_ancestors {directory path : String} (h : directory ∈ ancestors path) :
    directory.length ≤ path.length := by
  fun_induction ancestors path with
  | case1 path hempty =>
    rw [List.mem_singleton.1 h]
    exact Nat.zero_le _
  | case2 path hparent ih =>
    -- each step up makes the path shorter
    have hlt := length_parentPath_lt (ne_empty_of_parentPath hparent)
    rcases List.mem_cons.1 h with rfl | h
    · omega
    · have hle := ih h
      omega

/-- The parent of an ancestor is an ancestor. -/
private theorem parentPath_mem_ancestors {directory path : String} (h : directory ∈ ancestors path) :
    parentPath directory ∈ ancestors path := by
  fun_induction ancestors path with
  | case1 path hempty =>
    rw [List.mem_singleton.1 h, parentPath_empty]
    exact List.mem_singleton_self ""
  | case2 path hparent ih =>
    rcases List.mem_cons.1 h with rfl | h
    · -- the parent of the parent is the first of the parent's own ancestors
      exact List.mem_cons_of_mem _ (mem_ancestors.2 (.inl rfl))
    · exact List.mem_cons_of_mem _ (ih h)

/-! ## Inside a directory -/

/-- The path is the directory or lies in it. -/
def inside (directory path : String) : Bool :=
  path == directory || (ancestors path).contains directory

/-- A path is inside a directory if it is the directory or the directory is an ancestor. -/
theorem inside_iff {directory path : String} :
    inside directory path = true ↔ path = directory ∨ directory ∈ ancestors path := by
  simp [inside]

/-- A path is inside itself. -/
@[simp]
theorem inside_self (path : String) : inside path path = true := by
  rw [inside_iff]
  exact .inl rfl

/-- A directory is an ancestor of the paths whose parents are inside it. -/
theorem mem_ancestors_iff_inside {directory path : String} :
    directory ∈ ancestors path ↔ inside directory (parentPath path) = true := by
  rw [mem_ancestors, inside_iff, eq_comm (a := directory)]

/-- A path other than the directory is inside it if its parent is. -/
theorem inside_iff_parent {directory path : String} (h : path ≠ directory) :
    inside directory path = true ↔ inside directory (parentPath path) = true := by
  rw [inside_iff, ← mem_ancestors_iff_inside]
  simp [h]

/-- What is inside a path is inside its parent. -/
theorem inside_parentPath {directory path : String} (h : inside directory path = true) :
    inside (parentPath directory) path = true := by
  rw [inside_iff] at h ⊢
  -- the path itself lies in its parent, and ancestors are closed under taking parents
  rcases h with rfl | h
  · exact .inr (mem_ancestors.2 (.inl rfl))
  · exact .inr (parentPath_mem_ancestors h)

end JavaLint
