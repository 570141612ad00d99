import Mathlib.Data.List.Basic
import JavaLint.Text.Blank

/-!
# Where a word stands

The words of a text are its longest runs of characters that are not blank. So a word can be told by its
place: it stands somewhere in the text, and what is beside it is blank or the end of the text.

- `HasWord`: the word stands in the text
- `HasWordAfter`: the same for a text that something stands in front of
- `hasWord_append_blank`: a blank ends a word, and what comes after it is a text of its own
- `hasWordAfter_append_framed`: texts that no word reaches across
- `mem_words_iff`: the words that are read are those that stand in the text
-/

namespace JavaLint.Text

/-- The word stands in the text with only blanks beside it. It may stand at the very start of the text
    only if `isFree` says so: what is in front of the text would be beside it. -/
def HasWordAfter (isFree : Bool) (word text : List Char) : Prop :=
  ∃ before after, text = before ++ word ++ after ∧ (before = [] → isFree = true) ∧
    (∀ c ∈ before.getLast?, isBlank c = true) ∧ ∀ c ∈ after.head?, isBlank c = true

/-- The word stands in the text with only blanks beside it. -/
def HasWord (word text : List Char) : Prop :=
  HasWordAfter true word text

/-- What a word can be: it has a character, and none of its characters is blank. -/
structure IsWord (word : List Char) : Prop where
  ne_nil : word ≠ []
  not_blank : ∀ c ∈ word, isBlank c = false

/-- A run of other characters does not end in a blank. -/
private theorem eq_nil_of_getLast?_blank {run : List Char} (hrun : ∀ c ∈ run, isBlank c = false)
    (h : ∀ c ∈ run.getLast?, isBlank c = true) : run = [] := by
  cases hlast : run.getLast? with
  | none => exact List.getLast?_eq_none_iff.1 hlast
  | some c =>
    have hc := h c hlast
    rw [hrun c (List.mem_of_getLast? hlast)] at hc
    cases hc

/-- A run of other characters does not start with a blank. -/
private theorem eq_nil_of_head?_blank {run : List Char} (hrun : ∀ c ∈ run, isBlank c = false)
    (h : ∀ c ∈ run.head?, isBlank c = true) : run = [] := by
  cases run with
  | nil => rfl
  | cons c rest =>
    have hc := h c rfl
    rw [hrun c List.mem_cons_self] at hc
    cases hc

/-- Behind a blank a text starts anew. -/
theorem hasWordAfter_blank_cons {isFree : Bool} {word text : List Char} {c : Char} (hword : IsWord word)
    (hc : isBlank c = true) : HasWordAfter isFree word (c :: text) ↔ HasWord word text := by
  constructor
  · rintro ⟨before, after, htext, -, hbefore, hafter⟩
    cases before with
    | nil =>
      -- the word would start with the blank
      obtain ⟨d, rest, rfl⟩ := List.exists_cons_of_ne_nil hword.ne_nil
      obtain rfl := (List.cons.inj htext).1
      rw [hword.not_blank c List.mem_cons_self] at hc
      cases hc
    | cons d before =>
      refine ⟨before, after, (List.cons.inj htext).2, fun _ => rfl, ?_, hafter⟩
      intro e he
      refine hbefore e ?_
      cases before with
      | nil => cases he
      | cons f before => rwa [List.getLast?_cons_cons]
  · rintro ⟨before, after, rfl, -, hbefore, hafter⟩
    refine ⟨c :: before, after, rfl, fun h => absurd h (List.cons_ne_nil _ _), ?_, hafter⟩
    intro e he
    cases before with
    | nil =>
      obtain rfl : c = e := by simpa using he
      exact hc
    | cons f before => exact hbefore e (by rwa [List.getLast?_cons_cons] at he)

/-- Behind a run of other characters the next word has to wait for a blank. Only the run itself can be a word
    before that. -/
theorem hasWordAfter_append {isFree : Bool} {word run text : List Char} (hne : run ≠ [])
    (hrun : ∀ c ∈ run, isBlank c = false) :
    HasWordAfter isFree word (run ++ text) ↔
      HasWordAfter false word text ∨
        isFree = true ∧ ∃ after, run ++ text = word ++ after ∧ ∀ c ∈ after.head?, isBlank c = true := by
  constructor
  · rintro ⟨before, after, htext, hfree, hbefore, hafter⟩
    cases hnil : before with
    | nil =>
      rw [hnil, List.nil_append] at htext
      exact .inr ⟨hfree hnil, after, htext, hafter⟩
    | cons d rest =>
      -- what is before the word ends in a blank, so it reaches beyond the run
      left
      rw [List.append_assoc, List.append_eq_append_iff] at htext
      rcases htext with ⟨middle, hmiddle, htext⟩ | ⟨middle, hmiddle, htext⟩
      · have hlast : middle ≠ [] := by
          intro hempty
          rw [hempty, List.append_nil] at hmiddle
          have hblank := eq_nil_of_getLast?_blank (fun c hc => hrun c (hmiddle ▸ hc)) hbefore
          rw [hblank] at hnil
          cases hnil
        refine ⟨middle, after, by rw [htext, List.append_assoc], fun h => absurd h hlast, ?_, hafter⟩
        intro c hc
        refine hbefore c ?_
        rw [hmiddle, List.getLast?_append, Option.mem_def.1 hc]
        rfl
      · have hblank := eq_nil_of_getLast?_blank
          (fun c hc => hrun c (hmiddle ▸ List.mem_append_left middle hc)) hbefore
        rw [hblank] at hnil
        cases hnil
  · rintro (⟨before, after, rfl, hfree, hbefore, hafter⟩ | ⟨hfree, after, htext, hafter⟩)
    · -- with a run in front, what is before the word is not empty
      refine ⟨run ++ before, after, by simp only [List.append_assoc], ?_, ?_, hafter⟩
      · intro h
        exact absurd (List.append_eq_nil_iff.1 h).1 hne
      · cases before with
        | nil => cases hfree rfl
        | cons d before =>
          intro c hc
          rw [List.getLast?_append_of_ne_nil _ (List.cons_ne_nil _ _)] at hc
          exact hbefore c hc
    · exact ⟨[], after, htext, fun _ => hfree, by simp, hafter⟩

/-- No word reaches across the end of a text that starts with a character which is in no word, and that ends
    with one or before a blank. -/
theorem hasWordAfter_append_framed {isFree : Bool} {word frame text : List Char} (hword : IsWord word)
    (hhead : ∃ a ∈ frame.head?, a ∉ word)
    (hlast : (∃ a ∈ frame.getLast?, a ∉ word ∧ isBlank a = false) ∨ ∃ a ∈ text.head?, isBlank a = true) :
    HasWordAfter isFree word (frame ++ text) ↔ HasWordAfter false word frame ∨ HasWordAfter false word text := by
  -- the text does not go on with what is left of the word behind the frame
  have hcut : ∀ before inside outside after, frame = before ++ inside → word = inside ++ outside →
      text = outside ++ after → (inside = [] → ∀ c ∈ before.getLast?, isBlank c = true) → outside = [] := by
    rintro before inside outside after hframe rfl rfl hbefore
    by_contra houtside
    rcases hlast with ⟨a, ha, hnot, hblank⟩ | ⟨a, ha, hblank⟩
    · rw [hframe] at ha
      cases inside with
      | nil =>
        rw [List.append_nil] at ha
        rw [hbefore rfl a ha] at hblank
        cases hblank
      | cons d inside =>
        rw [List.getLast?_append_of_ne_nil _ (List.cons_ne_nil _ _)] at ha
        exact hnot (List.mem_append_left _ (List.mem_of_getLast? ha))
    · rw [List.head?_append_of_ne_nil _ houtside] at ha
      rw [hword.not_blank a (List.mem_append_right _ (List.mem_of_head? ha))] at hblank
      cases hblank
  constructor
  · rintro ⟨before, after, htext, -, hbefore, hafter⟩
    -- the frame starts with a character that is in no word, so the word is not at its start
    have hne : before ≠ [] := by
      rintro rfl
      obtain ⟨a, ha, hnot⟩ := hhead
      obtain ⟨d, rest, rfl⟩ := List.exists_cons_of_ne_nil hword.ne_nil
      obtain ⟨tail, rfl⟩ := List.head?_eq_some_iff.1 ha
      exact hnot ((List.cons.inj htext).1 ▸ List.mem_cons_self)
    rw [List.append_assoc, List.append_eq_append_iff] at htext
    rcases htext with ⟨middle, rfl, htext⟩ | ⟨middle, hframe, htext⟩
    · -- the word starts behind the frame
      refine .inr ⟨middle, after, by rw [htext, List.append_assoc], ?_, ?_, hafter⟩
      · rintro rfl
        rw [List.append_nil] at hbefore
        exact absurd (hcut frame [] word after (List.append_nil _).symm rfl htext fun _ => hbefore) hword.ne_nil
      · intro c hc
        refine hbefore c ?_
        rw [List.getLast?_append, Option.mem_def.1 hc]
        rfl
    · -- the word starts inside the frame, so it ends there
      left
      rcases List.append_eq_append_iff.1 htext with ⟨beyond, hmiddle, hafter'⟩ | ⟨beyond, hmiddle, htext⟩
      · refine ⟨before, beyond, by rw [hframe, hmiddle, List.append_assoc], fun h => absurd h hne, hbefore, ?_⟩
        intro c hc
        refine hafter c ?_
        rw [hafter', List.head?_append, Option.mem_def.1 hc]
        rfl
      · have hbeyond := hcut before middle beyond after hframe hmiddle htext fun _ => hbefore
        rw [hbeyond, List.append_nil] at hmiddle
        exact ⟨before, [], by rw [hframe, hmiddle, List.append_nil], fun h => absurd h hne, hbefore, by simp⟩
  · rintro (⟨before, after, hframe, hfree, hbefore, hafter⟩ | ⟨before, after, rfl, hfree, hbefore, hafter⟩)
    · refine ⟨before, after ++ text, by rw [hframe]; simp only [List.append_assoc],
        fun h => absurd (hfree h) Bool.false_ne_true, hbefore, ?_⟩
      cases after with
      | cons d after => exact hafter
      | nil =>
        rcases hlast with ⟨a, ha, hnot, -⟩ | ⟨a, ha, hblank⟩
        · -- the frame would end with the word
          rw [hframe, List.append_nil, List.getLast?_append_of_ne_nil _ hword.ne_nil] at ha
          exact absurd (List.mem_of_getLast? ha) hnot
        · intro c hc
          rw [List.nil_append, Option.mem_def.1 ha] at hc
          rw [← Option.some.inj hc]
          exact hblank
    · have hne : before ≠ [] := fun h => Bool.false_ne_true (hfree h)
      refine ⟨frame ++ before, after, by simp only [List.append_assoc],
        fun h => absurd (List.append_eq_nil_iff.1 h).2 hne, ?_, hafter⟩
      rwa [List.getLast?_append_of_ne_nil _ hne]

/-- A blank ends the word in front of it. -/
theorem hasWord_append_blank {word run text : List Char} {c : Char} (hword : IsWord word)
    (hrun : ∀ d ∈ run, isBlank d = false) (hc : isBlank c = true) :
    HasWord word (run ++ c :: text) ↔ word = run ∨ HasWord word text := by
  cases hempty : run with
  | nil =>
    rw [List.nil_append, HasWord, hasWordAfter_blank_cons hword hc]
    exact ⟨.inr, fun h => h.resolve_left hword.ne_nil⟩
  | cons d rest =>
    rw [← hempty, HasWord, hasWordAfter_append (by simp [hempty]) hrun,
      hasWordAfter_blank_cons hword hc, or_comm]
    refine or_congr_left ⟨?_, ?_⟩
    · rintro ⟨-, after, htext, hafter⟩
      -- both the word and the run end where the first blank stands
      have htake : (run ++ c :: text).takeWhile (!isBlank ·) = run := by
        rw [List.takeWhile_append_of_pos (by simpa using hrun)]
        simp [hc]
      have htake' : (word ++ after).takeWhile (!isBlank ·) = word := by
        rw [List.takeWhile_append_of_pos (by simpa using hword.not_blank)]
        cases after with
        | nil => simp
        | cons e after => simp [hafter e rfl]
      rw [← htake', ← htext, htake]
    · rintro rfl
      exact ⟨rfl, c :: text, rfl, by simpa using hc⟩

/-- The words that are read while `run`, in reverse, has been read last. -/
private theorem mem_wordsFrom_iff {word run text : List Char} (hword : IsWord word)
    (hrun : ∀ c ∈ run, isBlank c = false) :
    word ∈ wordsFrom run text ↔ HasWord word (run.reverse ++ text) := by
  -- the run that was read last grows until a blank ends it
  induction text generalizing run with
  | nil =>
    have hreverse : ∀ c ∈ run.reverse, isBlank c = false := by simpa using hrun
    -- at the end the run is the only word left
    have hwhole : HasWord word (run.reverse ++ []) ↔ word = run.reverse := by
      constructor
      · rintro ⟨before, after, htext, -, hbefore, hafter⟩
        rw [List.append_nil] at htext
        have hfirst := eq_nil_of_getLast?_blank (fun c hc => hreverse c (by simp [htext, hc])) hbefore
        have hlast := eq_nil_of_head?_blank (fun c hc => hreverse c (by simp [htext, hc])) hafter
        rw [htext, hfirst, hlast, List.nil_append, List.append_nil]
      · rintro rfl
        exact ⟨[], [], by simp, fun _ => rfl, by simp, by simp⟩
    rw [hwhole, wordsFrom]
    split
    · next hempty =>
      rw [List.isEmpty_iff.1 hempty]
      exact ⟨nofun, fun h => absurd h hword.ne_nil⟩
    · exact List.mem_singleton
  | cons c text ih =>
    rw [wordsFrom]
    split
    · next hc =>
      have hrest : word ∈ wordsFrom [] text ↔ HasWord word text := ih (List.forall_mem_nil _)
      rw [hasWord_append_blank hword (by simpa using hrun) hc]
      split
      · next hempty =>
        rw [List.isEmpty_iff.1 hempty, hrest]
        exact ⟨.inr, fun h => h.resolve_left hword.ne_nil⟩
      · rw [List.mem_cons, hrest]
    · next hc =>
      have hcons : ∀ d ∈ c :: run, isBlank d = false :=
        List.forall_mem_cons.2 ⟨Bool.eq_false_iff.2 hc, hrun⟩
      rw [ih hcons, List.reverse_cons, List.append_assoc, List.singleton_append]

/-- The words that are read are those that stand in the text. -/
theorem mem_words_iff {word text : String} (hword : IsWord word.toList) :
    word ∈ words text ↔ HasWord word.toList text.toList := by
  rw [words, List.mem_map]
  constructor
  · rintro ⟨w, hw, rfl⟩
    rw [String.toList_ofList] at hword ⊢
    exact (mem_wordsFrom_iff hword (List.forall_mem_nil _)).1 hw
  · intro h
    exact ⟨word.toList, (mem_wordsFrom_iff hword (List.forall_mem_nil _)).2 h, String.ofList_toList⟩

end JavaLint.Text
