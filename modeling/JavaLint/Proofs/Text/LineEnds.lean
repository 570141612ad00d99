import Mathlib.Data.List.DropRight
import JavaLint.Proofs.Text.Trimming
import JavaLint.Text.Lines

/-!
# Where lines end

There are two ways to count the lines of a text: by every character that ends a line, as `lines` cuts it, and by
line feeds alone. They differ by the stray ends, which have no line feed.

- `lineEnds_eq`: every end of a line is a line feed or stray
- `getElem?_linesFrom`: the line that holds a place comes after as many lines as are ended before the place
- `rtakeWhile_of_strayEnds`: without stray ends both ways agree on where a line starts
- `trimChars_append_eq_iff`: what may follow a text without a change after trimming
-/

namespace JavaLint.Text

/-! ## Counting ends -/

/-- How many lines are ended in a text. A carriage return and the line feed after it end one. -/
def lineEnds : List Char → Nat
  | [] => 0
  | '\r' :: '\n' :: s => lineEnds s + 1
  | c :: s => if isLineBreak c then lineEnds s + 1 else lineEnds s

/-- How many lines are ended in a text without a line feed. -/
def strayEnds : List Char → Nat
  | [] => 0
  | '\r' :: '\n' :: s => strayEnds s
  | c :: s => if isLineBreak c && c != '\n' then strayEnds s + 1 else strayEnds s

/-- Every end of a line is a line feed or stray. -/
theorem lineEnds_eq (s : List Char) : lineEnds s = s.count '\n' + strayEnds s := by
  fun_induction lineEnds s with
  | case1 => rfl
  | case2 s ih =>
    -- a carriage return with its line feed counts as the line feed
    rw [strayEnds, ih]
    simp [Nat.add_right_comm]
  | case3 c s hpair hbreak ih =>
    rw [strayEnds.eq_3 _ _ hpair, ih]
    by_cases hc : c = '\n'
    · simp [hc, Nat.add_right_comm]
    · simp [hbreak, hc, Nat.add_assoc]
  | case4 c s hpair hbreak ih =>
    have hc : c ≠ '\n' := by
      rintro rfl
      exact hbreak rfl
    rw [strayEnds.eq_3 _ _ hpair, ih]
    simp [hbreak, hc]

/-! ## The line that holds a place -/

/-- What stands around a place in a text, back to the last character before it that satisfies `p` and on to
    the next one. -/
def around (p : Char → Bool) (before after : List Char) : List Char :=
  before.rtakeWhile (!p ·) ++ after.takeWhile (!p ·)

/-- Going back through a text stops at the last character that does not satisfy the predicate. -/
private theorem rtakeWhile_append_cons {p : Char → Bool} {c : Char} (hc : p c = false) (a b : List Char) :
    (a ++ c :: b).rtakeWhile p = b.rtakeWhile p := by
  induction b using List.reverseRecOn with
  | nil => simp [hc]
  | append_singleton b d ih =>
    rw [← List.cons_append, ← List.append_assoc, List.rtakeWhile_concat, List.rtakeWhile_concat, ih]

/-- A character that ends no line is added to the line that was begun. -/
private theorem linesFrom_cons_of_not_break {c : Char} (hc : isLineBreak c = false) (part s : List Char) :
    linesFrom part (c :: s) = linesFrom (c :: part) s := by
  rw [linesFrom.eq_3, if_neg (by simp [hc])]
  rintro _ rfl _
  cases hc

/-- A line that was begun goes on up to the next end. -/
private theorem head?_linesFrom {part : List Char} (hpart : part ≠ []) (s : List Char) :
    (linesFrom part s).head? = some (part.reverse ++ s.takeWhile (!isLineBreak ·)) := by
  fun_induction linesFrom part s with
  | case1 part hempty => exact absurd (List.isEmpty_iff.1 hempty) hpart
  | case2 part => simp
  | case3 part s ih => simp [isLineBreak]
  | case4 part c s hpair hbreak ih => simp [hbreak]
  | case5 part c s hpair hbreak ih =>
    rw [ih (List.cons_ne_nil c part)]
    simp [hbreak]

/-- The line that holds a character comes after as many lines as are ended before the character. -/
theorem getElem?_linesFrom {part : List Char} (hpart : ∀ d ∈ part, isLineBreak d = false) {c : Char}
    (hc : isLineBreak c = false) (before after : List Char) :
    (linesFrom part (before ++ c :: after))[lineEnds before]? =
      some (around isLineBreak (part.reverse ++ before) (c :: after)) := by
  -- by the ends of lines before the character; the line that was begun is part of what is around it
  fun_induction lineEnds before generalizing part with
  | case1 =>
    have hline : part.reverse.rtakeWhile (!isLineBreak ·) = part.reverse := by
      simpa [List.rtakeWhile_eq_self_iff] using hpart
    rw [List.nil_append, List.append_nil, linesFrom_cons_of_not_break hc, ← List.head?_eq_getElem?,
      head?_linesFrom (List.cons_ne_nil c part), around, hline]
    simp [hc]
  | case2 s ih =>
    -- the line starts after the line feed of the pair
    have hfeed : around isLineBreak (part.reverse ++ '\r' :: '\n' :: s) (c :: after) =
        around isLineBreak s (c :: after) := by
      rw [around, around, rtakeWhile_append_cons rfl, ← List.nil_append ('\n' :: s),
        rtakeWhile_append_cons rfl]
    rw [List.cons_append, List.cons_append, linesFrom, List.getElem?_cons_succ, hfeed]
    exact ih (by simp)
  | case3 d s hpair hbreak ih =>
    -- the character after the end is no line feed that belongs to it
    have hpair' : ∀ rest, d = '\r' → s ++ c :: after = '\n' :: rest → False := by
      intro rest hd hrest
      cases s with
      | nil =>
        obtain ⟨rfl, -⟩ := List.cons.inj hrest
        cases hc
      | cons e s =>
        obtain ⟨rfl, -⟩ := List.cons.inj hrest
        exact hpair s hd rfl
    rw [List.cons_append, linesFrom.eq_3 _ _ _ hpair', if_pos hbreak, List.getElem?_cons_succ, ih (by simp),
      around, around, rtakeWhile_append_cons (by simp [hbreak])]
    rfl
  | case4 d s hpair hbreak ih =>
    -- the line that was begun goes on
    have hd : isLineBreak d = false := by simpa using hbreak
    rw [List.cons_append, linesFrom_cons_of_not_break hd, ih (by simpa [hd] using hpart)]
    simp

/-- The line of a text that holds a character, by the line feeds and the stray ends before it. -/
theorem getElem?_lines {c : Char} (hc : isLineBreak c = false) (before after : List Char) :
    (lines (.ofList (before ++ c :: after)))[before.count '\n' + strayEnds before]? =
      some (.ofList (around isLineBreak before (c :: after))) := by
  rw [lines, String.toList_ofList, List.getElem?_map, ← lineEnds_eq, getElem?_linesFrom (by simp) hc]
  rfl

/-! ## Lines between line feeds -/

/-- Every character that ends a line is blank. -/
theorem isBlank_of_isLineBreak {c : Char} (h : isLineBreak c = true) : isBlank c = true := by
  simp only [isLineBreak, isBlank, Bool.or_eq_true, Bool.and_eq_true, decide_eq_true_eq, beq_iff_eq] at h ⊢
  omega

/-- A first character is reached from behind only if all the others are. -/
private theorem rtakeWhile_cons {p : Char → Bool} {c : Char} (hc : p c = true) (s : List Char) :
    (c :: s).rtakeWhile p = if s.rtakeWhile p = s then c :: s else s.rtakeWhile p := by
  split
  · next hall =>
    rw [List.rtakeWhile_eq_self_iff] at hall ⊢
    exact List.forall_mem_cons.2 ⟨hc, hall⟩
  · next hstop =>
    -- the first character is not reached from behind
    rw [List.rtakeWhile_eq_self_iff, not_forall] at hstop
    obtain ⟨d, hd⟩ := hstop
    obtain ⟨hmem, hd⟩ := Classical.not_imp.1 hd
    obtain ⟨a, b, rfl⟩ := List.append_of_mem hmem
    have hd : p d = false := by simpa using hd
    rw [← List.cons_append, rtakeWhile_append_cons hd, rtakeWhile_append_cons hd]

/-- Without stray ends, a line starts after the last line feed. -/
theorem rtakeWhile_of_strayEnds {s : List Char} (h : strayEnds s = 0) :
    s.rtakeWhile (!isLineBreak ·) = s.rtakeWhile fun c => !(c == '\n') := by
  fun_induction strayEnds s with
  | case1 => rfl
  | case2 s ih =>
    rw [← List.singleton_append, rtakeWhile_append_cons rfl, rtakeWhile_append_cons rfl, ih h]
  | case3 c s hpair hstray ih => cases h
  | case4 c s hpair hstray ih =>
    -- an end that is not stray is a line feed, and there both stop
    by_cases hc : c = '\n'
    · subst hc
      rw [← List.nil_append ('\n' :: s), rtakeWhile_append_cons rfl, rtakeWhile_append_cons rfl, ih h]
    · have hbreak : isLineBreak c = false := by simpa [hc] using hstray
      rw [rtakeWhile_cons (by simp [hbreak]), rtakeWhile_cons (by simp [hc]), ih h]

/-- What follows the first end of a line on the way to the next line feed. -/
def afterFirstEnd (after : List Char) : List Char :=
  (after.takeWhile fun c => !(c == '\n')).dropWhile (!isLineBreak ·)

/-- Without stray ends before a place, the text between line feeds is the line that holds the place and what
    follows the end of that line. -/
theorem around_newline {before : List Char} (h : strayEnds before = 0) (after : List Char) :
    around (· == '\n') before after = around isLineBreak before after ++ afterFirstEnd after := by
  have hfeed : ∀ c : Char, (!isLineBreak c) = true → (!(c == '\n')) = true := by
    intro c hc
    rw [Bool.not_eq_true', beq_eq_false_iff_ne]
    rintro rfl
    cases hc
  -- the text up to the next line feed reaches at least to the next end of a line
  have htake : (after.takeWhile fun c => !(c == '\n')).takeWhile (!isLineBreak ·) =
      after.takeWhile (!isLineBreak ·) := by
    rw [List.takeWhile_takeWhile]
    congr
    funext c
    rw [Bool.eq_iff_iff, decide_eq_true_iff]
    exact ⟨fun h => h.1, fun h => ⟨h, hfeed c h⟩⟩
  rw [around, around, rtakeWhile_of_strayEnds h, afterFirstEnd, ← htake, List.append_assoc,
    List.takeWhile_append_dropWhile]

/-- Trimming keeps every character that is not blank. -/
private theorem countP_trimChars (s : List Char) : (trimChars s).countP (!isBlank ·) = s.countP (!isBlank ·) := by
  obtain ⟨before, after, hs, hbefore, hafter⟩ := (isTrimmed_trimChars s).around
  have hnone : ∀ {t : List Char}, (∀ c ∈ t, isBlank c = true) → t.countP (!isBlank ·) = 0 := by
    intro t ht
    simpa [List.countP_eq_zero] using ht
  conv_rhs => rw [hs, List.countP_append, List.countP_append, hnone hbefore, hnone hafter]
  omega

/-- What follows a text does not change it after trimming exactly if it is blank. -/
theorem trimChars_append_eq_iff {s rest : List Char} :
    trimChars s = trimChars (s ++ rest) ↔ ∀ c ∈ rest, isBlank c = true := by
  constructor
  · intro h
    -- what follows would add characters that are not blank
    have hcount := congrArg (List.countP (!isBlank ·)) h
    rw [countP_trimChars, countP_trimChars, List.countP_append] at hcount
    have hrest : rest.countP (!isBlank ·) = 0 := by omega
    simpa [List.countP_eq_zero] using hrest
  · intro h
    rw [trimChars_append_right h]

end JavaLint.Text
