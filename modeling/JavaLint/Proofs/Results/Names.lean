import Mathlib.Data.String.Basic
import JavaLint.Proofs.Results.Lineage
import JavaLint.Proofs.Text.Parts

/-!
# The names of a path

A path is a list of names with slashes between them, and paths are ordered name by name. If no name is
empty, the parent of a path has all names but the last, so the ancestors of a path are its prefixes.

- `pathNames`, `IsPlain`: the names of a path, none of which is empty in a plain one
- `IsPlain.of_mem_ancestors`: an ancestor has fewer of the same names
- `append_lt_append`: of two equally long lists of names, the order does not depend on what follows
-/

namespace JavaLint

/-! ## Names -/

/-- The names of a path, in order. The empty path has none. -/
def pathNames (path : String) : List String :=
  if path = "" then [] else Text.split '/' path

/-- No name of the path is empty. -/
def IsPlain (path : String) : Prop :=
  "" ∉ pathNames path

/-- The empty path has no names. -/
theorem pathNames_empty : pathNames "" = [] := if_pos rfl

/-- The empty path is plain. -/
theorem isPlain_empty : IsPlain "" := by
  simp [IsPlain, pathNames_empty]

/-- A path is known by its names. -/
theorem pathNames_injective : Function.Injective pathNames := by
  intro p q h
  rw [pathNames, pathNames] at h
  -- a path that is not empty has at least one name, so both paths are empty or neither is
  split at h
  · next hp =>
    split at h
    · next hq => rw [hp, hq]
    · exact absurd h.symm (Text.split_ne_nil '/' q)
  · split at h
    · exact absurd h (Text.split_ne_nil '/' p)
    · exact Text.split_injective '/' h

/-- The parent of a plain path has all its names but the last. -/
theorem IsPlain.exists_pathNames_eq {path : String} (h : IsPlain path) (hne : path ≠ "") :
    ∃ name, pathNames path = pathNames (parentPath path) ++ [name] := by
  rw [IsPlain, pathNames, if_neg hne] at h
  rw [pathNames, if_neg hne, parentPath]
  cases hcut : Text.cutLast? '/' path with
  | none => exact ⟨path, by rw [Text.split_of_cutLast?_eq_none hcut, pathNames_empty, List.nil_append]⟩
  | some parts =>
    obtain ⟨before, after⟩ := parts
    have hsplit := Text.split_of_cutLast?_eq_some hcut
    -- a path that starts with a slash has an empty name
    have hbefore : before ≠ "" := by
      intro hempty
      rw [hsplit, hempty] at h
      exact h (by simp [Text.split, Text.splitFrom])
    exact ⟨after, by rw [hsplit, pathNames, if_neg hbefore]⟩

/-- The parent of a plain path is plain. -/
theorem IsPlain.parent {path : String} (h : IsPlain path) (hne : path ≠ "") :
    IsPlain (parentPath path) := by
  obtain ⟨name, hnames⟩ := h.exists_pathNames_eq hne
  rw [IsPlain, hnames, List.mem_append, not_or] at h
  exact h.1

/-- An ancestor has fewer of the same names. -/
theorem IsPlain.of_mem_ancestors {directory path : String} (h : IsPlain path) (hne : path ≠ "")
    (hmem : directory ∈ ancestors path) :
    IsPlain directory ∧ pathNames directory <+: pathNames path ∧
      (pathNames directory).length < (pathNames path).length := by
  fun_induction ancestors path with
  | case1 path hempty =>
    obtain ⟨name, hnames⟩ := h.exists_pathNames_eq hne
    rw [List.mem_singleton.1 hmem, pathNames_empty, hnames]
    exact ⟨isPlain_empty, List.nil_prefix, by simp⟩
  | case2 path hparent ih =>
    obtain ⟨name, hnames⟩ := h.exists_pathNames_eq hne
    rw [hnames]
    -- the parent has one name less; the others have fewer than the parent
    rcases List.mem_cons.1 hmem with rfl | hmem
    · exact ⟨h.parent hne, List.prefix_append _ _, by simp⟩
    · obtain ⟨hplain, hunder, hlt⟩ := ih (h.parent hne) hparent hmem
      refine ⟨hplain, hunder.trans (List.prefix_append _ _), ?_⟩
      rw [List.length_append]
      omega

/-! ## The order of names -/

/-- Of two equally long lists, the order does not depend on what follows. -/
theorem append_lt_append {α : Type} [LT α] {a b : List α} (h : a < b) (hlength : a.length = b.length)
    (s t : List α) : a ++ s < b ++ t := by
  -- the order is decided before either list ends, since they end together
  induction h with
  | nil => simp at hlength
  | cons _ ih => exact .cons (ih (by simpa using hlength))
  | rel hlt => exact .rel hlt

/-- A list comes after the shorter ones that it starts with. -/
theorem lt_of_isPrefix {α : Type} [LT α] {a b : List α} (h : a <+: b) (hlength : a.length < b.length) :
    a < b := by
  obtain ⟨s, rfl⟩ := h
  -- what is left over is not empty
  cases s with
  | nil => simp at hlength
  | cons x s =>
    have hnil : [] < x :: s := .nil
    simpa using List.append_left_lt hnil

end JavaLint
