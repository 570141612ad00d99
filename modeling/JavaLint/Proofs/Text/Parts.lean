import Mathlib.Data.List.TakeWhile
import Mathlib.Data.String.Basic
import JavaLint.Text.Split

/-!
# The parts of a text

A text is cut at every separator, at the first or at the last one. Each way of cutting is undone by putting the
parts together again.

- `splitFrom_eq_splitOn`: the parts of a text, as the library cuts a list
- `splitOn_intercalate`, `split_intercalate`, `mem_intercalate`: a text that is put together from parts
- `cutFirst?_eq_none_iff`: when there is nothing to cut at
- `cutFirst?_eq_some_iff`, `cutLast?_eq_some_iff`: what stands around the first and the last separator
- `split_of_cutLast?_eq_some`, `split_injective`: a text and its parts
-/

namespace JavaLint.Text

/-! ## Every separator -/

/-- Cutting with a part begun is what the library does with it. -/
private theorem splitFrom_eq_splitOnPPrepend (sep : Char) (part s : List Char) :
    splitFrom sep part s = s.splitOnPPrepend (· == sep) part := by
  induction s generalizing part with
  | nil => simp [splitFrom]
  | cons c s ih => simp [splitFrom, List.splitOnPPrepend, ih]

/-- Cutting a list of characters is what the library does. -/
theorem splitFrom_eq_splitOn (sep : Char) (s : List Char) : splitFrom sep [] s = s.splitOn sep :=
  splitFrom_eq_splitOnPPrepend sep [] s

/-- The parts of a text are those of its characters. -/
private theorem split_eq (sep : Char) (s : String) : split sep s = (s.toList.splitOn sep).map String.ofList := by
  rw [split, splitFrom_eq_splitOn]

section

variable {sep : String} {c : Char} (hsep : sep.toList = [c])
include hsep

/-- Parts without the separator can be read back. -/
theorem splitOn_intercalate {parts : List String} (hne : parts ≠ []) (h : ∀ part ∈ parts, c ∉ part.toList) :
    (sep.intercalate parts).toList.splitOn c = parts.map String.toList := by
  rw [String.toList_intercalate, hsep]
  exact List.splitOn_intercalate c (by simpa using h) (by simpa using hne)

/-- A character other than the separator stands in the text if it stands in a part. -/
theorem mem_intercalate {d : Char} (hd : d ≠ c) (parts : List String) :
    d ∈ (sep.intercalate parts).toList ↔ ∃ part ∈ parts, d ∈ part.toList := by
  induction parts with
  | nil => simp
  | cons part rest ih =>
    -- a separator stands only between two parts
    cases rest with
    | nil => simp
    | cons next rest =>
      rw [String.intercalate_cons_cons, String.toList_append, String.toList_append, List.mem_append,
        List.mem_append, ih, hsep]
      simp [hd]

/-- A text that is put together from parts without the separator has these parts. -/
theorem split_intercalate {parts : List String} (hne : parts ≠ []) (h : ∀ part ∈ parts, c ∉ part.toList) :
    split c (sep.intercalate parts) = parts := by
  rw [split_eq, splitOn_intercalate hsep hne h, List.map_map]
  simp

end

/-- Every text has a part, if only itself. -/
theorem split_ne_nil (sep : Char) (s : String) : split sep s ≠ [] := by
  rw [split_eq, Ne, List.map_eq_nil_iff]
  exact List.splitOn_ne_nil sep s.toList

/-- Different texts have different parts. -/
theorem split_injective (sep : Char) : Function.Injective (split sep) := by
  intro s t h
  rw [split_eq, split_eq] at h
  have hparts : s.toList.splitOn sep = t.toList.splitOn sep :=
    List.map_injective_iff.2 (fun _ _ => String.ofList_injective) h
  -- put together again, the parts are the text
  have hchars := congrArg [sep].intercalate hparts
  rw [List.intercalate_splitOn, List.intercalate_splitOn] at hchars
  exact String.toList_inj.1 hchars

/-! ## The first and the last separator -/

/-- What stands around the first separator of a list of characters. -/
theorem cutFirstChars?_eq_some_iff {sep : Char} {s before after : List Char} :
    cutFirstChars? sep s = some (before, after) ↔ s = before ++ sep :: after ∧ sep ∉ before := by
  rw [cutFirstChars?]
  constructor
  · intro h
    split at h
    · cases h
    · next c rest hrest =>
      have hne : s.dropWhile (· != sep) ≠ [] := by
        rw [hrest]
        exact List.cons_ne_nil c rest
      -- what is dropped has no separator, so the first character that is kept is one
      have hc : c = sep := by
        have hhead := List.head_dropWhile_not (· != sep) hne
        simpa [hrest] using hhead
      have hsplit := List.takeWhile_append_dropWhile (p := (· != sep)) (l := s)
      simp only [Option.some.injEq, Prod.mk.injEq] at h
      rw [hrest, h.1, h.2, hc] at hsplit
      refine ⟨hsplit.symm, ?_⟩
      intro hmem
      rw [← h.1] at hmem
      simpa using List.mem_takeWhile_imp hmem
  · rintro ⟨rfl, hmem⟩
    -- everything before the separator is passed over
    have hne : ∀ c ∈ before, (c != sep) = true := by
      intro c hc
      rw [bne_iff_ne]
      rintro rfl
      exact hmem hc
    simp [List.dropWhile_append_of_pos hne, List.takeWhile_append_of_pos hne]

/-- A list that is not cut has no separator. -/
private theorem not_mem_of_cutFirstChars? {sep : Char} {s : List Char} (h : cutFirstChars? sep s = none) :
    sep ∉ s := by
  rw [cutFirstChars?] at h
  split at h
  · next hnil =>
    intro hmem
    simpa using List.dropWhile_eq_nil_iff.1 hnil sep hmem
  · cases h

/-- What stands around the first separator of a text. -/
theorem cutFirst?_eq_some_iff {sep : Char} {s before after : String} :
    cutFirst? sep s = some (before, after) ↔
      s.toList = before.toList ++ sep :: after.toList ∧ sep ∉ before.toList := by
  rw [← cutFirstChars?_eq_some_iff, cutFirst?]
  constructor
  · intro h
    obtain ⟨⟨a, b⟩, hcut, hpair⟩ := Option.map_eq_some_iff.1 h
    obtain ⟨rfl, rfl⟩ := Prod.mk.inj hpair
    simpa using hcut
  · intro h
    simp [h]

/-- A text is cut unless it has no separator. -/
theorem cutFirst?_eq_none_iff {sep : Char} {s : String} : cutFirst? sep s = none ↔ sep ∉ s.toList := by
  rw [cutFirst?, Option.map_eq_none_iff]
  constructor
  · exact not_mem_of_cutFirstChars?
  · intro hmem
    rw [Option.eq_none_iff_forall_ne_some]
    -- a cut puts the separator between its two parts
    rintro ⟨before, after⟩ hcut
    obtain ⟨hs, -⟩ := cutFirstChars?_eq_some_iff.1 hcut
    rw [hs] at hmem
    exact hmem (by simp)

/-- What stands around the last separator of a text. -/
theorem cutLast?_eq_some_iff {sep : Char} {s before after : String} :
    cutLast? sep s = some (before, after) ↔
      s.toList = before.toList ++ sep :: after.toList ∧ sep ∉ after.toList := by
  -- read backwards, the last separator is the first one
  have hreverse : s.toList = before.toList ++ sep :: after.toList ↔
      s.toList.reverse = after.toList.reverse ++ sep :: before.toList.reverse := by
    rw [← List.reverse_inj]
    simp
  rw [hreverse, ← List.mem_reverse, ← cutFirstChars?_eq_some_iff, cutLast?, cutLastChars?, Option.map_map]
  constructor
  · intro h
    obtain ⟨⟨a, b⟩, hcut, hpair⟩ := Option.map_eq_some_iff.1 h
    obtain ⟨rfl, rfl⟩ := Prod.mk.inj hpair
    simpa using hcut
  · intro h
    simp [h]

/-- The last part of a text is what follows its last separator. -/
theorem split_of_cutLast?_eq_some {sep : Char} {s before after : String}
    (h : cutLast? sep s = some (before, after)) : split sep s = split sep before ++ [after] := by
  obtain ⟨hs, hmem⟩ := cutLast?_eq_some_iff.1 h
  rw [split_eq, split_eq, hs, List.splitOn_append_cons_self, List.splitOn_eq_singleton hmem]
  simp

/-- A text without a separator is its own only part. -/
theorem split_of_cutLast?_eq_none {sep : Char} {s : String} (h : cutLast? sep s = none) :
    split sep s = [s] := by
  rw [cutLast?, cutLastChars?, Option.map_map, Option.map_eq_none_iff] at h
  -- the reversed text has no separator, so the text has none
  have hmem := not_mem_of_cutFirstChars? h
  rw [List.mem_reverse] at hmem
  rw [split_eq, List.splitOn_eq_singleton hmem]
  simp

end JavaLint.Text
