import JavaLint.Proofs.Text.Trimming
import JavaLint.Report.SourceLine

/-!
# How a source line is shown

A source line is trimmed. If it is still too long, it is cut down to seventy characters: a window that starts at
the given column as far as that is possible, two dots, and the end of the line. The window never reaches into the
end, and what is shown is not changed by showing it again.

- `IsCutDown`: the form of a long line that is shown
- `isCutDown_fitChars`: fitting a long line gives this form
- `trimChars_fitChars`: what is shown from the first column on is trimmed
- `formatSourceLine_fits`: all of it together
-/

namespace JavaLint.Report

open Text

/-! ## Lines that are cut down -/

/-- Of the line, 56 characters from `start` on are shown, then two dots, then its last 12 characters. These come
    behind the 56 characters. -/
def IsCutDown (start : Nat) (line shown : List Char) : Prop :=
  ∃ before window between tail, line = before ++ window ++ between ++ tail ∧
    shown = window ++ ['.', '.'] ++ tail ∧ before.length = start ∧ window.length = 56 ∧ tail.length = 12

/-- The window starts between the front of the line and the last place where it has room. -/
private theorem windowStart_eq {length : Nat} (h : 68 ≤ length) (column : Int) :
    (windowStart length column : Int) = max 0 (min column (length - 68)) := by
  have hwindow : sourceLineWindow = 56 := rfl
  rw [windowStart, hwindow, sourceLineTail]
  omega

/-- A line that is too long is cut down. -/
theorem isCutDown_fitChars {line : List Char} (h : 70 < line.length) (column : Int) :
    IsCutDown (windowStart line.length column) line (fitChars column line) := by
  have hstart := windowStart_eq (show 68 ≤ line.length by omega) column
  have hmark : truncationMark.toList = ['.', '.'] := rfl
  have hwindow : sourceLineWindow = 56 := rfl
  rw [fitChars, if_neg (by rw [sourceLineLength]; omega), hmark, hwindow, sourceLineTail]
  generalize windowStart line.length column = k at hstart
  -- the window ends before the end of the line starts
  have hroom : k + 56 ≤ line.length - 12 := by omega
  refine ⟨line.take k, (line.drop k).take 56, (line.drop (k + 56)).take (line.length - 12 - (k + 56)),
    line.drop (line.length - 12), ?_, rfl, ?_, ?_, ?_⟩
  · -- what is left out and the end of the line are all that stands behind the window
    have hbehind : (line.drop (k + 56)).take (line.length - 12 - (k + 56)) ++ line.drop (line.length - 12) =
        line.drop (k + 56) := by
      have hdrop := List.take_append_drop (line.length - 12 - (k + 56)) (line.drop (k + 56))
      rwa [List.drop_drop, Nat.add_sub_cancel' hroom] at hdrop
    rw [List.append_assoc, hbehind, List.append_assoc, ← List.drop_drop, List.take_append_drop,
      List.take_append_drop]
  · rw [List.length_take]
    omega
  · rw [List.length_take, List.length_drop]
    omega
  · rw [List.length_drop]
    omega

/-- A line that is short enough is shown as it is. -/
private theorem fitChars_of_le {line : List Char} (h : line.length ≤ 70) (column : Int) :
    fitChars column line = line :=
  if_pos h

namespace IsCutDown

variable {start : Nat} {line shown : List Char}

/-- What is shown of a long line has seventy characters. -/
private theorem length_eq (h : IsCutDown start line shown) : shown.length = 70 := by
  obtain ⟨before, window, between, tail, -, rfl, -, hwindow, htail⟩ := h
  simp [hwindow, htail]

/-- What is shown ends as the line does. -/
private theorem getLast?_eq (h : IsCutDown start line shown) : shown.getLast? = line.getLast? := by
  obtain ⟨before, window, between, tail, rfl, rfl, -, -, htail⟩ := h
  -- the end of the line has a last character
  have hsome : ∃ c, tail.getLast? = some c := by
    rw [← Option.isSome_iff_exists, List.getLast?_isSome]
    rintro rfl
    cases htail
  obtain ⟨c, hc⟩ := hsome
  simp only [List.getLast?_append, hc, Option.some_or]

/-- What is shown from the first column on starts as the line does. -/
private theorem head?_eq (h : IsCutDown 0 line shown) : shown.head? = line.head? := by
  obtain ⟨before, window, between, tail, rfl, rfl, hbefore, hwindow, -⟩ := h
  -- nothing is before the window, and it has a first character
  have hsome : ∃ c, window.head? = some c := by
    rw [← Option.isSome_iff_exists, List.isSome_head?]
    rintro rfl
    cases hwindow
  obtain ⟨c, hc⟩ := hsome
  rw [List.length_eq_zero_iff.1 hbefore]
  simp [List.head?_append, hc]

end IsCutDown

/-! ## Showing a line twice -/

/-- What is shown has seventy characters at most. -/
private theorem length_fitChars_le (column : Int) (line : List Char) : (fitChars column line).length ≤ 70 := by
  by_cases h : line.length ≤ 70
  · rwa [fitChars_of_le h]
  · exact (isCutDown_fitChars (not_le.1 h) column).length_eq.le

/-- Fitting a line from its first column on keeps the characters at its ends. -/
private theorem ends_fitChars (line : List Char) :
    (fitChars 0 line).head? = line.head? ∧ (fitChars 0 line).getLast? = line.getLast? := by
  by_cases h : line.length ≤ 70
  · rw [fitChars_of_le h]
    exact ⟨rfl, rfl⟩
  · have hcut := isCutDown_fitChars (not_le.1 h) 0
    -- from the first column on, the window starts at the front
    have hstart : windowStart line.length 0 = 0 := by
      have := windowStart_eq (show 68 ≤ line.length by omega) 0
      omega
    refine ⟨?_, hcut.getLast?_eq⟩
    rw [hstart] at hcut
    exact hcut.head?_eq

/-- A trimmed line that is fitted from its first column on is still trimmed. -/
theorem trimChars_fitChars {text core : List Char} (h : IsTrimmed text core) :
    trimChars (fitChars 0 core) = fitChars 0 core := by
  obtain ⟨hhead, hlast⟩ := ends_fitChars core
  apply trimChars_eq_self
  · rw [hhead]
    exact h.head
  · rw [hlast]
    exact h.last

/-- Something is shown of every line. -/
private theorem fitChars_ne_nil {line : List Char} (h : line ≠ []) (column : Int) : fitChars column line ≠ [] := by
  by_cases hle : line.length ≤ 70
  · rwa [fitChars_of_le hle]
  · have hlength := (isCutDown_fitChars (not_le.1 hle) column).length_eq
    exact List.ne_nil_of_length_pos (by omega)

/-! ## Source lines -/

/-- Nothing is shown if there is no line, or none but blanks. -/
private theorem formatSourceLine_eq_none_iff {sourceLine : Option String} {column : Int} :
    formatSourceLine sourceLine column = none ↔
      sourceLine = none ∨ ∃ text, sourceLine = some text ∧ ∀ c ∈ text.toList, isBlank c = true := by
  cases sourceLine with
  | none => simp [formatSourceLine]
  | some text =>
    simp only [reduceCtorEq, false_or, Option.some.injEq, exists_eq_left', ← trimChars_eq_nil_iff]
    simp [formatSourceLine]

/-- The trimmed line is fitted. -/
private theorem formatSourceLine_of_isTrimmed {text : String} {core : List Char} (h : IsTrimmed text.toList core)
    (hne : core ≠ []) (column : Int) :
    formatSourceLine (some text) column = some (String.ofList (fitChars column core)) := by
  simp [formatSourceLine, isTrimmed_iff.1 h, hne]

/-- What is shown from the first column on is shown again as it is. -/
private theorem formatSourceLine_formatSourceLine (sourceLine : Option String) :
    formatSourceLine (formatSourceLine sourceLine 0) 0 = formatSourceLine sourceLine 0 := by
  cases sourceLine with
  | none => rfl
  | some text =>
    have htrimmed := isTrimmed_trimChars text.toList
    by_cases hnil : trimChars text.toList = []
    · rw [formatSourceLine_eq_none_iff.2 (.inr ⟨text, rfl, trimChars_eq_nil_iff.1 hnil⟩)]
      rfl
    · -- the second time there is nothing to trim, and it is short enough
      have hagain : IsTrimmed (String.ofList (fitChars 0 (trimChars text.toList))).toList
          (fitChars 0 (trimChars text.toList)) := by
        rw [isTrimmed_iff, String.toList_ofList]
        exact trimChars_fitChars htrimmed
      rw [formatSourceLine_of_isTrimmed htrimmed hnil,
        formatSourceLine_of_isTrimmed hagain (fitChars_ne_nil hnil 0), fitChars_of_le (length_fitChars_le 0 _)]

/-- A line without visible characters is not shown. Any other is shown trimmed: as it is if it has at most seventy
    characters, and else cut down to seventy, with a window that starts at the column or as near to it as there is
    room before the end of the line. Showing a line from its first column on is idempotent. -/
theorem formatSourceLine_fits (sourceLine : Option String) (column : Int) :
    (formatSourceLine sourceLine column = none ↔
      sourceLine = none ∨ ∃ text, sourceLine = some text ∧ ∀ c ∈ text.toList, isBlank c = true) ∧
    (∀ text c, sourceLine = some text → c ∈ text.toList → isBlank c = false →
      ∃ core shown, IsTrimmed text.toList core ∧ formatSourceLine sourceLine column = some shown ∧
        (core.length ≤ 70 → shown.toList = core) ∧
        (70 < core.length → shown.length = 70 ∧
          ∃ k : Nat, (k : Int) = max 0 (min column (core.length - 68)) ∧ k + 56 ≤ core.length - 12 ∧
            (0 ≤ column → column ≤ core.length - 68 → (k : Int) = column) ∧
            IsCutDown k core shown.toList)) ∧
    formatSourceLine (formatSourceLine sourceLine 0) 0 = formatSourceLine sourceLine 0 := by
  refine ⟨formatSourceLine_eq_none_iff, ?_, formatSourceLine_formatSourceLine sourceLine⟩
  rintro text c rfl hc hvisible
  have htrimmed := isTrimmed_trimChars text.toList
  -- the character that is not blank survives trimming
  have hne : trimChars text.toList ≠ [] := by
    intro hnil
    rw [trimChars_eq_nil_iff.1 hnil c hc] at hvisible
    cases hvisible
  refine ⟨_, _, htrimmed, formatSourceLine_of_isTrimmed htrimmed hne column, ?_, ?_⟩
  · intro hshort
    rw [String.toList_ofList, fitChars_of_le hshort]
  · intro hlong
    have hstart := windowStart_eq (show 68 ≤ (trimChars text.toList).length by omega) column
    have hcut := isCutDown_fitChars hlong column
    refine ⟨?_, _, hstart, by omega, fun hfront hroom => by omega, ?_⟩
    · rw [String.length_ofList, hcut.length_eq]
    · rw [String.toList_ofList]
      exact hcut

/-- Eighty characters with blanks around them. -/
def wideLine : String :=
  String.ofList (' ' :: (List.replicate 30 'a' ++ List.replicate 50 'b') ++ ['\t'])

/-- The window for a column far behind the line starts twelve characters into it, and reaches up to the end. -/
theorem formatSourceLine_fits_wideLine :
    ∃ shown, formatSourceLine (some wideLine) 1000 = some shown ∧ shown.length = 70 ∧
      IsCutDown 12 (List.replicate 30 'a' ++ List.replicate 50 'b') shown.toList ∧
      formatSourceLine (formatSourceLine (some wideLine) 0) 0 = formatSourceLine (some wideLine) 0 := by
  obtain ⟨-, hshown, hagain⟩ := formatSourceLine_fits (some wideLine) 1000
  obtain ⟨core, shown, htrimmed, hsome, -, hlong⟩ := hshown wideLine 'a' rfl (by decide) (by decide)
  obtain rfl : List.replicate 30 'a' ++ List.replicate 50 'b' = core := by
    rw [← isTrimmed_iff.1 htrimmed]
    decide
  obtain ⟨hlength, k, hk, -, -, hcut⟩ := hlong (by decide)
  -- the last column at which the window has room
  obtain rfl : k = 12 := by
    rw [List.length_append, List.length_replicate, List.length_replicate] at hk
    omega
  exact ⟨shown, hsome, hlength, hcut, hagain⟩

end JavaLint.Report
