import Mathlib.Data.List.TakeWhile
import JavaLint.Text.Blank

/-!
# What trimming leaves

The trimmed text is the one that starts and ends with a character which is not blank and has only blanks
around it. There is exactly one such text, so trimming can be replaced by this description.

- `trimChars_append_left`, `trimChars_append_right`: blanks at an end do not count
- `isTrimmed_iff`: the description and the function agree
- `trimChars_eq_nil_iff`: when nothing is left
-/

namespace JavaLint.Text

/-- `core` is `s` without the blanks at its ends. -/
structure IsTrimmed (s core : List Char) : Prop where
  around : ∃ before after, s = before ++ core ++ after ∧ (∀ c ∈ before, isBlank c = true) ∧
    ∀ c ∈ after, isBlank c = true
  head : ∀ c ∈ core.head?, isBlank c = false
  last : ∀ c ∈ core.getLast?, isBlank c = false

/-- The list is not cut at its front if it starts with nothing to drop. -/
private theorem dropWhile_eq_self {α : Type} {p : α → Bool} {s : List α} (h : ∀ c ∈ s.head?, p c = false) :
    s.dropWhile p = s := by
  cases s with
  | nil => rfl
  | cons c rest => simp [h c rfl]

/-- What is left starts with a character that is not to be dropped. -/
private theorem head?_dropWhile {α : Type} {p : α → Bool} {s : List α} {c : α}
    (h : c ∈ (s.dropWhile p).head?) : p c = false := by
  have hnot := List.head?_dropWhile_not p s
  rw [Option.mem_def.1 h] at hnot
  exact hnot

/-- Blanks in front do not count. -/
theorem trimChars_append_left {before : List Char} (h : ∀ c ∈ before, isBlank c = true) (s : List Char) :
    trimChars (before ++ s) = trimChars s := by
  rw [trimChars, trimChars, trimCharsWhile, trimCharsWhile, List.dropWhile_append_of_pos h]

/-- Blanks behind do not count. -/
theorem trimChars_append_right {after : List Char} (h : ∀ c ∈ after, isBlank c = true) (s : List Char) :
    trimChars (s ++ after) = trimChars s := by
  have hafter : ∀ c ∈ after.reverse, isBlank c = true := by simpa using h
  simp only [trimChars, trimCharsWhile, List.dropWhile_append]
  split
  · -- nothing but blanks is left of `s`
    next hnil =>
    have hall : after.dropWhile isBlank = [] := List.dropWhile_eq_nil_iff.2 h
    simp [hall, List.isEmpty_iff.1 hnil]
  · rw [List.reverse_append, List.dropWhile_append_of_pos hafter]

/-- A text with no blank at its ends is left as it is. -/
theorem trimChars_eq_self {s : List Char} (hhead : ∀ c ∈ s.head?, isBlank c = false)
    (hlast : ∀ c ∈ s.getLast?, isBlank c = false) : trimChars s = s := by
  rw [trimChars, trimCharsWhile, dropWhile_eq_self hhead, dropWhile_eq_self, List.reverse_reverse]
  simpa using hlast

/-- What trimming leaves has no blank at its ends, and only blanks were taken away. -/
theorem isTrimmed_trimChars (s : List Char) : IsTrimmed s (trimChars s) := by
  -- what is dropped in front, and then what is dropped behind
  have hfront := List.takeWhile_append_dropWhile (p := isBlank) (l := s)
  have hback := List.takeWhile_append_dropWhile (p := isBlank) (l := (s.dropWhile isBlank).reverse)
  have hcore : s.dropWhile isBlank =
      trimChars s ++ ((s.dropWhile isBlank).reverse.takeWhile isBlank).reverse := by
    rw [trimChars, trimCharsWhile, ← List.reverse_append, hback, List.reverse_reverse]
  constructor
  · refine ⟨s.takeWhile isBlank, ((s.dropWhile isBlank).reverse.takeWhile isBlank).reverse, ?_, ?_, ?_⟩
    · rw [List.append_assoc, ← hcore, hfront]
    · intro c hc
      exact List.mem_takeWhile_imp hc
    · intro c hc
      exact List.mem_takeWhile_imp (List.mem_reverse.1 hc)
  · intro c hc
    -- its first character is the first that was not dropped in front
    apply head?_dropWhile (s := s)
    rw [hcore, List.head?_append]
    simp [Option.mem_def.1 hc]
  · intro c hc
    rw [trimChars, trimCharsWhile, List.getLast?_reverse] at hc
    exact head?_dropWhile hc

/-- Trimming gives the one text that is left without the blanks at the ends. -/
theorem isTrimmed_iff {s core : List Char} : IsTrimmed s core ↔ trimChars s = core := by
  constructor
  · rintro ⟨⟨before, after, rfl, hbefore, hafter⟩, hhead, hlast⟩
    rw [trimChars_append_right hafter, trimChars_append_left hbefore, trimChars_eq_self hhead hlast]
  · rintro rfl
    exact isTrimmed_trimChars s

/-- Nothing is left of a text exactly if all of it is blank. -/
theorem trimChars_eq_nil_iff {s : List Char} : trimChars s = [] ↔ ∀ c ∈ s, isBlank c = true := by
  constructor
  · intro h
    obtain ⟨before, after, rfl, hbefore, hafter⟩ := (isTrimmed_iff.2 h).around
    simpa [or_imp, forall_and] using ⟨hbefore, hafter⟩
  · intro h
    -- all of it counts as blanks in front of nothing
    rw [← List.append_nil s, trimChars_append_left h]
    rfl

/-- Texts are trimmed as lists of characters. -/
theorem toList_trim (s : String) : (trim s).toList = trimChars s.toList := by
  rw [trim, String.toList_ofList]

end JavaLint.Text
