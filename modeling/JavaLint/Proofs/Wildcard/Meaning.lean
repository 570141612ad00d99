import JavaLint.Proofs.Outcome
import JavaLint.Proofs.Text.Parts
import JavaLint.Proofs.Text.Trimming
import JavaLint.Wildcard

/-!
# The meaning of a wildcard list

Every character of an entry stands for a run of characters: a star for any run, a question mark for any run of
length one, and every other character for itself alone. An entry matches the texts that such runs make up, and
a list matches what one of its entries matches.

- `Matches`, `IsEntry`, `IsMalformed`: what a list means, said without the matcher and without the reader
- `matchesAll_iff`: the matcher, which tries every tail after a star, finds the runs if there are any
- `readEntry_spec`: what reading one entry gives
- `ofString_means`: a list can be read unless it is malformed, and then matches what it means
-/

namespace JavaLint

namespace Wildcard

/-! ## Meaning -/

/-- The runs of characters that a character of an entry stands for. -/
inductive StandsFor : Char → List Char → Prop where
  | anyRun (run : List Char) : StandsFor '*' run
  | anyChar (c : Char) : StandsFor '?' [c]
  | itself {c : Char} (hstar : c ≠ '*') (hmark : c ≠ '?') : StandsFor c [c]

/-- The value is made up of runs that the characters of the entry stand for, one after another. -/
def Matches (entry value : List Char) : Prop :=
  ∃ runs, List.Forall₂ StandsFor entry runs ∧ value = runs.flatten

/-- The entry stands between two commas of the list, or between a comma and an end, with blanks around it. -/
def IsEntry (list entry : String) : Prop :=
  ∃ part ∈ list.toList.splitOn ',', Text.IsTrimmed part entry.toList

/-- An entry of the list is empty or holds a square bracket. -/
def IsMalformed (list : String) : Prop :=
  ∃ entry, IsEntry list entry ∧ (entry = "" ∨ '[' ∈ entry.toList ∨ ']' ∈ entry.toList)

/-- An empty entry matches the empty text only. -/
private theorem matches_nil {value : List Char} : Matches [] value ↔ value = [] := by
  simp [Matches]

/-- The first character stands for a front part of the value, and the others for the rest. -/
private theorem matches_cons {c : Char} {entry value : List Char} :
    Matches (c :: entry) value ↔ ∃ run rest, value = run ++ rest ∧ StandsFor c run ∧ Matches entry rest := by
  constructor
  · rintro ⟨_, hruns, rfl⟩
    obtain ⟨run, runs, hrun, hrest, rfl⟩ := List.forall₂_cons_left_iff.1 hruns
    exact ⟨run, runs.flatten, List.flatten_cons, hrun, runs, hrest, rfl⟩
  · rintro ⟨run, _, rfl, hrun, runs, hrest, rfl⟩
    exact ⟨run :: runs, .cons hrun hrest, List.flatten_cons.symm⟩

/-- A question mark stands for any one character. -/
private theorem standsFor_mark_iff {run : List Char} : StandsFor '?' run ↔ ∃ c, run = [c] := by
  constructor
  · intro h
    cases h with
    | anyChar c => exact ⟨c, rfl⟩
    | itself _ hmark => exact absurd rfl hmark
  · rintro ⟨c, rfl⟩
    exact .anyChar c

/-- A character that is not special stands for itself alone. -/
private theorem standsFor_iff {c : Char} (hstar : c ≠ '*') (hmark : c ≠ '?') {run : List Char} :
    StandsFor c run ↔ run = [c] := by
  constructor
  · intro h
    cases h with
    | anyRun => exact absurd rfl hstar
    | anyChar => exact absurd rfl hmark
    | itself => rfl
  · rintro rfl
    exact .itself hstar hmark

/-! ## The matcher -/

/-- Some tail of the text is accepted. -/
private theorem anyTail_iff {p : List Char → Bool} {s : List Char} :
    anyTail p s = true ↔ ∃ run rest, s = run ++ rest ∧ p rest = true := by
  induction s with
  | nil => simp [anyTail]
  | cons c s ih =>
    rw [anyTail, Bool.or_eq_true, ih]
    constructor
    · rintro (h | ⟨run, rest, rfl, h⟩)
      · exact ⟨[], c :: s, rfl, h⟩
      · exact ⟨c :: run, rest, rfl, h⟩
    · rintro ⟨run, rest, hs, h⟩
      -- the tail is the whole text, or a tail of what follows its first character
      cases run with
      | nil =>
        rw [List.nil_append] at hs
        exact .inl (hs ▸ h)
      | cons d run =>
        obtain ⟨-, rfl⟩ := List.cons.inj hs
        exact .inr ⟨run, rest, rfl, h⟩

/-- The matcher finds runs for the characters of an entry whenever there are any. -/
theorem matchesAll_iff {entry value : List Char} :
    matchesAll (entry.map Token.ofChar) value = true ↔ Matches entry value := by
  -- character by character, each with a front part of what is left of the value
  induction entry generalizing value with
  | nil => simp [matchesAll, matches_nil]
  | cons c entry ih =>
    rw [List.map_cons, matches_cons]
    by_cases hstar : c = '*'
    · -- every way to cut the value is tried
      subst hstar
      rw [show Token.ofChar '*' = .anyRun from rfl, matchesAll, anyTail_iff]
      simp [ih, StandsFor.anyRun]
    · by_cases hmark : c = '?'
      · -- a question mark takes the next character, whichever it is
        subst hmark
        rw [show Token.ofChar '?' = .anyChar from rfl]
        cases value with
        | nil => simp [matchesAll, standsFor_mark_iff]
        | cons d value =>
          rw [matchesAll, ih]
          constructor
          · intro h
            exact ⟨[d], value, rfl, .anyChar d, h⟩
          · rintro ⟨run, rest, hvalue, hrun, h⟩
            obtain ⟨e, rfl⟩ := standsFor_mark_iff.1 hrun
            obtain ⟨-, rfl⟩ := List.cons.inj hvalue
            exact h
      · -- any other character takes only itself
        have htoken : Token.ofChar c = .literal c := by simp [Token.ofChar, hstar, hmark]
        rw [htoken]
        cases value with
        | nil => simp [matchesAll, standsFor_iff hstar hmark]
        | cons d value =>
          rw [matchesAll, Bool.and_eq_true, beq_iff_eq, ih]
          constructor
          · rintro ⟨rfl, h⟩
            exact ⟨[d], value, rfl, .itself hstar hmark, h⟩
          · rintro ⟨run, rest, hvalue, hrun, h⟩
            obtain rfl := (standsFor_iff hstar hmark).1 hrun
            obtain ⟨rfl, rfl⟩ := List.cons.inj hvalue
            exact ⟨rfl, h⟩

/-! ## Reading -/

/-- The parts of a list that are read one by one. -/
private theorem isEntry_iff {list entry : String} :
    IsEntry list entry ↔ ∃ part ∈ Text.split ',' list, Text.trim part = entry := by
  simp only [IsEntry, Text.isTrimmed_iff, Text.split, Text.splitFrom_eq_splitOn, List.mem_map]
  constructor
  · rintro ⟨part, hpart, htrim⟩
    exact ⟨.ofList part, ⟨part, hpart, rfl⟩, by rw [Text.trim, String.toList_ofList, htrim, String.ofList_toList]⟩
  · rintro ⟨_, ⟨part, hpart, rfl⟩, rfl⟩
    exact ⟨part, hpart, by rw [Text.toList_trim, String.toList_ofList]⟩

/-- An entry is refused if it is empty or holds a square bracket, and else read character by character. -/
theorem readEntry_spec (list part : String) :
    ((∃ e, readEntry list part = .error e) ↔
      (Text.trim part = "" ∨ '[' ∈ (Text.trim part).toList ∨ ']' ∈ (Text.trim part).toList)) ∧
    ∀ tokens, readEntry list part = .ok tokens → tokens = (Text.trim part).toList.map Token.ofChar := by
  have hempty : Text.trim part = "" ↔ Text.trimChars part.toList = [] := by
    rw [← String.toList_inj, Text.toList_trim]
    rfl
  rw [hempty, Text.toList_trim]
  simp only [readEntry, List.isEmpty_iff, List.contains_iff_mem, Bool.or_eq_true]
  -- the two causes are looked for one after the other
  by_cases hnil : Text.trimChars part.toList = []
  · simp [hnil]
  · by_cases hbracket : '[' ∈ Text.trimChars part.toList ∨ ']' ∈ Text.trimChars part.toList
    · simp [hnil, hbracket]
    · simp [hnil, hbracket, eq_comm]

end Wildcard

namespace WildcardList

open Wildcard

/-- A list is read entry by entry. -/
private theorem ofString_eq_bind (text : String) :
    ofString text = ((Text.split ',' text).mapM (readEntry text)).map (⟨text, ·⟩) := by
  rw [ofString]
  cases (Text.split ',' text).mapM (readEntry text) <;> rfl

/-- A list cannot be read exactly if it is malformed. -/
theorem exists_ofString_eq_error_iff {text : String} :
    (∃ e, ofString text = .error e) ↔ IsMalformed text := by
  -- every part can be read exactly if no entry is malformed
  have hok : (∀ part ∈ Text.split ',' text, ∃ tokens, readEntry text part = .ok tokens) ↔
      ¬ IsMalformed text := by
    simp only [IsMalformed, isEntry_iff]
    constructor
    · rintro h ⟨_, ⟨part, hpart, rfl⟩, hbad⟩
      obtain ⟨tokens, htokens⟩ := h part hpart
      obtain ⟨e, he⟩ := (readEntry_spec text part).1.2 hbad
      rw [htokens] at he
      cases he
    · intro h part hpart
      cases hread : readEntry text part with
      | ok tokens => exact ⟨tokens, rfl⟩
      | error e => exact absurd ⟨_, ⟨part, hpart, rfl⟩, (readEntry_spec text part).1.1 ⟨e, hread⟩⟩ h
  rw [← not_iff_not, ← hok, ← exists_mapM_eq_ok_iff, ofString_eq_bind]
  cases (Text.split ',' text).mapM (readEntry text) <;> simp [Except.map]

/-- A list that is read holds its entries character by character. -/
theorem ofString_eq_ok {text : String} {list : WildcardList} (h : ofString text = .ok list) :
    list = ⟨text, (Text.split ',' text).map fun part => (Text.trim part).toList.map Token.ofChar⟩ := by
  rw [ofString_eq_bind] at h
  cases hread : (Text.split ',' text).mapM (readEntry text) with
  | error e => simp [hread, Except.map] at h
  | ok entries =>
    -- each part was read, and there is only one way to read it
    have hparts : ∀ part ∈ Text.split ',' text,
        readEntry text part = .ok ((Text.trim part).toList.map Token.ofChar) := by
      intro part hpart
      obtain ⟨tokens, htokens⟩ := exists_mapM_eq_ok_iff.1 ⟨entries, hread⟩ part hpart
      rw [htokens, (readEntry_spec text part).2 tokens htokens]
    rw [mapM_eq_ok hparts] at h
    exact (Except.ok.inj h).symm

/-- A list that was read matches what one of its entries matches. -/
theorem isMatch_iff {text : String} {list : WildcardList} (h : ofString text = .ok list) (value : String) :
    list.isMatch value = true ↔ ∃ entry, IsEntry text entry ∧ Matches entry.toList value.toList := by
  rw [ofString_eq_ok h, isMatch, List.any_map, List.any_eq_true]
  simp only [isEntry_iff, Function.comp_apply, matchesAll_iff]
  constructor
  · rintro ⟨part, hpart, hmatch⟩
    exact ⟨_, ⟨part, hpart, rfl⟩, hmatch⟩
  · rintro ⟨_, ⟨part, hpart, rfl⟩, hmatch⟩
    exact ⟨part, hpart, hmatch⟩

/-- A list of wildcards can be read unless one of its entries is empty or holds a square bracket. One that can
    be read matches a text exactly if the text is made up of what the characters of one entry stand for. -/
theorem ofString_means (text : String) :
    ((∃ e, ofString text = .error e) ↔ IsMalformed text) ∧
    (¬ IsMalformed text → ∃ list, ofString text = .ok list ∧
      ∀ value : String, list.isMatch value = true ↔
        ∃ entry, IsEntry text entry ∧ Matches entry.toList value.toList) := by
  refine ⟨exists_ofString_eq_error_iff, fun hformed => ?_⟩
  cases hread : ofString text with
  | error e => exact absurd (exists_ofString_eq_error_iff.1 ⟨e, hread⟩) hformed
  | ok list => exact ⟨list, rfl, isMatch_iff hread⟩

/-- A list that can be read although it holds brackets, bars and a backslash, none of which is special. -/
theorem ofString_means_mixedList :
    ¬ IsMalformed " com.(a|b)\\.*$ , ?^" ∧ ∃ list, ofString " com.(a|b)\\.*$ , ?^" = .ok list ∧
      ∀ value : String, list.isMatch value = true ↔
        ∃ entry, IsEntry " com.(a|b)\\.*$ , ?^" entry ∧ Matches entry.toList value.toList := by
  have hformed : ¬ IsMalformed " com.(a|b)\\.*$ , ?^" := by
    rw [← exists_ofString_eq_error_iff]
    rintro ⟨e, he⟩
    exact nomatch he
  exact ⟨hformed, (ofString_means _).2 hformed⟩

example : ((ofString " com.(a|b)\\.*$ , ?^").map (·.isMatch "com.(a|b)\\.x\ny$")).toOption = some true := by
  decide

end WildcardList

end JavaLint
