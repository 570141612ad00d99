import JavaLint.Config.Override
import JavaLint.Proofs.Outcome
import JavaLint.Proofs.Text.Parts
import JavaLint.Proofs.Text.Trimming
import Mathlib.Data.List.Nodup
import Mathlib.Logic.Relation

/-!
# What a list of assignments says

An assignment has the form `rule.key=value`. Reading a list of them gives a table by rule and by key, and the
table holds exactly the last value that was assigned to each key of each rule.

- `Assignment.ofString_eq_ok_iff`: the form of an assignment
- `Keyed.map_fst_insert`, `value?_assign`: what one assignment does to the table
- `lastAssigned_append`: of two lists the second counts
- `holds_of_ofAssignments`: the table of a list of assignments
- `lastAssigned_iff_of_reordered`: assignments to different properties can change places
-/

namespace JavaLint

/-! ## The form of an assignment -/

namespace Overrides

/-- The text assigns the value to the key of the rule. The key is what stands before the first equals sign, cut at
    its first dot; blanks around it and around the value do not count. -/
def Assignment.IsWritten (a : Assignment) (text : String) : Prop :=
  ∃ target value, text.toList = target ++ '=' :: value ∧ '=' ∉ target ∧
    Text.IsTrimmed target (a.rule.toList ++ '.' :: a.key.toList) ∧ '.' ∉ a.rule.toList ∧
    a.rule ≠ "" ∧ a.key ≠ "" ∧ Text.IsTrimmed value a.value.toList

/-- What is read from a text is what the text assigns. -/
theorem Assignment.isWritten_of_ofString {text : String} {a : Assignment} (h : ofString text = .ok a) :
    a.IsWritten text := by
  rw [ofString] at h
  -- three ways to fail, and then the parts of the text
  split at h
  · cases h
  next target value hcut =>
  split at h
  · cases h
  next rule key htarget =>
  split at h
  · cases h
  next hempty =>
  obtain ⟨htext, heq⟩ := Text.cutFirst?_eq_some_iff.1 hcut
  obtain ⟨htrim, hdot⟩ := Text.cutFirst?_eq_some_iff.1 htarget
  simp only [Bool.or_eq_true, String.isEmpty_iff, not_or] at hempty
  cases h
  refine ⟨target.toList, value.toList, htext, heq, ?_, hdot, hempty.1, hempty.2, ?_⟩
  · rw [Text.isTrimmed_iff, ← Text.toList_trim, htrim]
  · rw [Text.isTrimmed_iff, Text.toList_trim]

/-- What a text assigns is read from it. -/
theorem Assignment.ofString_of_isWritten {text : String} {a : Assignment} (h : a.IsWritten text) :
    ofString text = .ok a := by
  obtain ⟨target, value, htext, heq, htarget, hdot, hrule, hkey, hvalue⟩ := h
  -- the first equals sign and the first dot are where the parts say
  have hcut : Text.cutFirst? '=' text = some (String.ofList target, String.ofList value) := by
    simp [Text.cutFirst?_eq_some_iff, htext, heq]
  have htrim : Text.cutFirst? '.' (Text.trim (String.ofList target)) = some (a.rule, a.key) := by
    rw [Text.cutFirst?_eq_some_iff, Text.toList_trim, String.toList_ofList, Text.isTrimmed_iff.1 htarget]
    exact ⟨rfl, hdot⟩
  have hlast : Text.trim (String.ofList value) = a.value := by
    rw [← String.toList_inj, Text.toList_trim, String.toList_ofList, Text.isTrimmed_iff.1 hvalue]
  simp [ofString, hcut, htrim, hlast, hrule, hkey]

/-- The form of an assignment. -/
theorem Assignment.ofString_eq_ok_iff {text : String} {a : Assignment} :
    ofString text = .ok a ↔ a.IsWritten text :=
  ⟨isWritten_of_ofString, ofString_of_isWritten⟩

/-- A text says one thing at most. -/
private theorem Assignment.IsWritten.iff_eq {a b : Assignment} {text : String} (h : a.IsWritten text) :
    b.IsWritten text ↔ b = a := by
  rw [← ofString_eq_ok_iff, ofString_of_isWritten h, Except.ok.injEq, eq_comm]

end Overrides

/-! ## Tables -/

namespace Keyed

/-- A key keeps its place, and a new one comes last. -/
theorem map_fst_insert {α : Type} (key : String) (value : α) (table : Keyed α) :
    (table.insert key value).map Prod.fst =
      if key ∈ table.map Prod.fst then table.map Prod.fst else table.map Prod.fst ++ [key] := by
  induction table with
  | nil => simp [insert]
  | cons entry rest ih =>
    obtain ⟨k, v⟩ := entry
    -- the value is replaced here, or the search goes on
    by_cases hk : k = key
    · simp [insert, hk]
    · have hk' : key ≠ k := fun h => hk h.symm
      simp only [insert, beq_eq_false_iff_ne.2 hk, Bool.false_eq_true, if_false, List.map_cons, ih,
        List.mem_cons, hk', false_or]
      split <;> rfl

/-- The keys are the new one and those that were there. -/
private theorem mem_map_fst_insert {α : Type} {key other : String} {value : α} {table : Keyed α} :
    other ∈ (table.insert key value).map Prod.fst ↔ other = key ∨ other ∈ table.map Prod.fst := by
  rw [map_fst_insert]
  split
  · next hmem => exact ⟨.inr, fun h => h.elim (fun heq => heq ▸ hmem) id⟩
  · rw [List.mem_append, List.mem_singleton, or_comm]

/-- No key comes to stand in the table twice. -/
private theorem nodup_map_fst_insert {α : Type} {key : String} {value : α} {table : Keyed α}
    (h : (table.map Prod.fst).Nodup) : ((table.insert key value).map Prod.fst).Nodup := by
  rw [map_fst_insert]
  split
  · exact h
  · next hmem =>
    rw [← List.concat_eq_append]
    exact List.Nodup.concat hmem h

/-- A key is looked up past the entries of other keys. -/
theorem lookup_cons_ne {α : Type} {key other : String} (h : other ≠ key) (value : α) (table : Keyed α) :
    List.lookup other ((key, value) :: table) = table.lookup other := by
  rw [List.lookup_cons, beq_eq_false_iff_ne.2 h]

/-- A key has a value if it is in the table. -/
theorem exists_lookup_eq_some_iff {α : Type} {key : String} {table : Keyed α} :
    (∃ value, table.lookup key = some value) ↔ key ∈ table.map Prod.fst := by
  induction table with
  | nil => simp
  | cons entry rest ih =>
    obtain ⟨k, v⟩ := entry
    by_cases hk : key = k
    · simp [hk]
    · simp [lookup_cons_ne hk, hk, ih]

/-- In a table without repeated keys the value of a key is what stands beside it. -/
theorem mem_iff_lookup {α : Type} {key : String} {value : α} {table : Keyed α}
    (h : (table.map Prod.fst).Nodup) : (key, value) ∈ table ↔ table.lookup key = some value := by
  induction table with
  | nil => simp
  | cons entry rest ih =>
    obtain ⟨k, v⟩ := entry
    obtain ⟨hnot, hrest⟩ := List.nodup_cons.1 h
    by_cases hk : key = k
    · -- the key is not met again behind its first place
      subst hk
      have hgone : (key, value) ∉ rest := fun hmem => hnot (List.mem_map.2 ⟨_, hmem, rfl⟩)
      simp [hgone, eq_comm]
    · simp [lookup_cons_ne hk, hk, ih hrest]

/-- Values are changed where they stand. -/
theorem lookup_map {α β : Type} (f : α → β) (key : String) (table : Keyed α) :
    List.lookup key (table.map fun (k, v) => (k, f v)) = (table.lookup key).map f := by
  induction table with
  | nil => rfl
  | cons entry rest ih =>
    obtain ⟨k, v⟩ := entry
    by_cases hk : key = k
    · simp [hk]
    · rw [List.map_cons, lookup_cons_ne hk, lookup_cons_ne hk, ih]

end Keyed

/-! ## The last value of each property -/

namespace Overrides

/-- The value that the overrides have for a key of a rule. -/
def value? {α : Type} (overrides : Overrides α) (rule key : String) : Option α :=
  (overrides.lookup rule).bind fun values => values.lookup key

/-- An assignment changes one value and no other. -/
theorem value?_assign (overrides : Overrides String) (a : Assignment) (rule key : String) :
    (overrides.assign a).value? rule key =
      if rule = a.rule ∧ key = a.key then some a.value else overrides.value? rule key := by
  rw [value?, assign]
  -- another rule, another key of the rule, or the key itself
  by_cases hrule : rule = a.rule
  · subst hrule
    rw [Keyed.lookup_insert_self, Option.bind_some]
    by_cases hkey : key = a.key
    · rw [hkey, Keyed.lookup_insert_self, if_pos ⟨rfl, rfl⟩]
    · rw [Keyed.lookup_insert_ne _ _ hkey, if_neg fun h => hkey h.2, value?]
      cases overrides.lookup a.rule <;> rfl
  · rw [Keyed.lookup_insert_ne _ _ hrule, if_neg fun h => hrule h.1, value?]

/-- No text assigns the key of the rule a value. -/
def Untouched (texts : List String) (rule key : String) : Prop :=
  ∀ text ∈ texts, ∀ value, ¬ Assignment.IsWritten ⟨rule, key, value⟩ text

/-- The texts assign the value to the key of the rule, and none that follows assigns it another one. -/
def LastAssigned (texts : List String) (rule key value : String) : Prop :=
  ∃ before text after, texts = before ++ text :: after ∧ Assignment.IsWritten ⟨rule, key, value⟩ text ∧
    Untouched after rule key

/-- Of two lists the second counts; the first does where the second is silent. -/
theorem lastAssigned_append {first second : List String} {rule key value : String} :
    LastAssigned (first ++ second) rule key value ↔
      LastAssigned second rule key value ∨
        (LastAssigned first rule key value ∧ Untouched second rule key) := by
  constructor
  · rintro ⟨before, text, after, heq, hwritten, hlater⟩
    -- the last text stands in the second list
    obtain ⟨middle, rfl, hsecond⟩ | ⟨middle, hfirst, hsecond⟩ := List.append_eq_append_iff.1 heq
    · exact .inl ⟨middle, text, after, hsecond, hwritten, hlater⟩
    · -- the last text stands at the border or within the first list
      cases middle with
      | nil => exact .inl ⟨[], text, after, hsecond.symm, hwritten, hlater⟩
      | cons head rest =>
        obtain ⟨rfl, rfl⟩ := List.cons.inj hsecond
        exact .inr ⟨⟨before, text, rest, hfirst, hwritten, fun t ht => hlater t (by simp [ht])⟩,
          fun t ht => hlater t (by simp [ht])⟩
  · rintro (⟨before, text, after, rfl, hwritten, hlater⟩ | ⟨hfirst, hsecond⟩)
    · exact ⟨first ++ before, text, after, by simp, hwritten, hlater⟩
    · obtain ⟨before, text, after, rfl, hwritten, hlater⟩ := hfirst
      refine ⟨before, text, after ++ second, by simp, hwritten, fun t ht => ?_⟩
      exact (List.mem_append.1 ht).elim (hlater t) (hsecond t)

/-- A single text has the last word. -/
private theorem lastAssigned_singleton {text rule key value : String} :
    LastAssigned [text] rule key value ↔ Assignment.IsWritten ⟨rule, key, value⟩ text := by
  constructor
  · rintro ⟨before, written, after, heq, hwritten, -⟩
    have hmem : written ∈ [text] := by simp [heq]
    rwa [List.mem_singleton.1 hmem] at hwritten
  · intro h
    exact ⟨[], text, [], rfl, h, by simp [Untouched]⟩

/-- Where there is no text nothing is assigned. -/
private theorem not_lastAssigned_nil {rule key value : String} : ¬ LastAssigned [] rule key value := by
  rintro ⟨before, text, after, heq, -⟩
  simp at heq

/-- A value that is assigned is assigned by one of the texts. -/
theorem LastAssigned.exists_mem {texts : List String} {rule key value : String}
    (h : LastAssigned texts rule key value) : ∃ text ∈ texts, Assignment.IsWritten ⟨rule, key, value⟩ text := by
  obtain ⟨before, text, after, rfl, hwritten, -⟩ := h
  exact ⟨text, by simp, hwritten⟩

/-- What is assigned a value has a last one. -/
theorem exists_lastAssigned {texts : List String} {rule key : String} (h : ¬ Untouched texts rule key) :
    ∃ value, LastAssigned texts rule key value := by
  induction texts with
  | nil => simp [Untouched] at h
  | cons text texts ih =>
    by_cases hlater : Untouched texts rule key
    · -- the first text is the only one that can assign the value
      simp only [Untouched, List.forall_mem_cons, not_and_or] at h
      obtain ⟨value, hwritten⟩ := not_forall_not.1 (h.resolve_right (not_not_intro hlater))
      exact ⟨value, [], text, texts, rfl, hwritten, hlater⟩
    · obtain ⟨value, before, last, after, heq, hlast⟩ := ih hlater
      exact ⟨value, text :: before, last, after, by rw [heq]; rfl, hlast⟩

/-- A table that texts are read into holds their last values, and its own where they are silent. -/
private theorem value?_foldl_assign {texts : List String} {assignments : List Assignment}
    (h : List.Forall₂ (fun text a => Assignment.IsWritten a text) texts assignments)
    (overrides : Overrides String) (rule key value : String) :
    (assignments.foldl assign overrides).value? rule key = some value ↔
      LastAssigned texts rule key value ∨
        (overrides.value? rule key = some value ∧ Untouched texts rule key) := by
  -- over the texts from the front, so what is in the table already is what the texts before have left
  induction h generalizing overrides with
  | nil => simp [not_lastAssigned_nil, Untouched]
  | @cons text a texts assignments hwritten _ ih =>
    have hsays : ∀ v, Assignment.IsWritten ⟨rule, key, v⟩ text ↔ ⟨rule, key, v⟩ = a :=
      fun v => hwritten.iff_eq
    -- the first text has the last word only where the others are silent
    have hcons : LastAssigned (text :: texts) rule key value ↔ LastAssigned texts rule key value ∨
        (⟨rule, key, value⟩ = a ∧ Untouched texts rule key) := by
      rw [← hsays, ← lastAssigned_singleton, ← lastAssigned_append, List.singleton_append]
    rw [List.foldl_cons, ih, hcons, value?_assign]
    -- it is silent about everything but its own key
    have huntouched : Untouched (text :: texts) rule key ↔
        ¬ (rule = a.rule ∧ key = a.key) ∧ Untouched texts rule key := by
      simp only [Untouched, List.forall_mem_cons, hsays]
      refine and_congr_left' ⟨fun hno hsame => ?_, fun hno v hv => ?_⟩
      · exact hno a.value (by rw [hsame.1, hsame.2])
      · exact hno ⟨by rw [← hv], by rw [← hv]⟩
    rw [huntouched]
    by_cases hsame : rule = a.rule ∧ key = a.key
    · obtain ⟨rfl, rfl⟩ := hsame
      have hvalue : (⟨a.rule, a.key, value⟩ : Assignment) = a ↔ a.value = value := by
        cases a
        simp [eq_comm]
      simp [hvalue]
    · have hne : (⟨rule, key, value⟩ : Assignment) ≠ a := by
        rintro rfl
        exact hsame ⟨rfl, rfl⟩
      simp [hsame, hne]

/-- However often a rule is assigned to, the table has it once. -/
theorem nodup_foldl_assign {assignments : List Assignment} {overrides : Overrides String}
    (h : (overrides.map Prod.fst).Nodup) : ((assignments.foldl assign overrides).map Prod.fst).Nodup := by
  induction assignments generalizing overrides with
  | nil => exact h
  | cons a assignments ih => exact ih (Keyed.nodup_map_fst_insert h)

/-- The rules of the table are those that were assigned to, and those it had before. -/
private theorem mem_map_fst_foldl_assign {texts : List String} {assignments : List Assignment}
    (h : List.Forall₂ (fun text a => Assignment.IsWritten a text) texts assignments)
    (overrides : Overrides String) (rule : String) :
    rule ∈ (assignments.foldl assign overrides).map Prod.fst ↔
      (∃ text ∈ texts, ∃ key value, Assignment.IsWritten ⟨rule, key, value⟩ text) ∨
        rule ∈ overrides.map Prod.fst := by
  induction h generalizing overrides with
  | nil => simp
  | @cons text a texts assignments hwritten _ ih =>
    -- the first text speaks of one rule
    have hsays : (∃ key value, Assignment.IsWritten ⟨rule, key, value⟩ text) ↔ rule = a.rule := by
      simp only [hwritten.iff_eq]
      exact ⟨fun ⟨key, value, heq⟩ => by rw [← heq], fun heq => ⟨a.key, a.value, by rw [heq]⟩⟩
    rw [List.foldl_cons, ih, assign, Keyed.mem_map_fst_insert, List.exists_mem_cons_iff, hsays, or_assoc,
      or_left_comm]

/-- What a table of overrides is after the texts have been read: it has the rules that were assigned to, each
    once, and of each key the last value. -/
structure Holds (overrides : Overrides String) (texts : List String) : Prop where
  nodup : (overrides.map Prod.fst).Nodup
  mem_rules : ∀ rule, rule ∈ overrides.map Prod.fst ↔
    ∃ text ∈ texts, ∃ key value, Assignment.IsWritten ⟨rule, key, value⟩ text
  value?_eq : ∀ rule key value, overrides.value? rule key = some value ↔ LastAssigned texts rule key value

/-- The table that texts are read into holds their last values. -/
theorem holds_of_ofAssignments {texts : List String} {overrides : Overrides String}
    (h : ofAssignments texts = .ok overrides) : overrides.Holds texts := by
  obtain ⟨assignments, hread, hfold⟩ := bind_eq_ok_iff.1 h
  obtain rfl : assignments.foldl assign [] = overrides := Except.ok.inj hfold
  -- each text was read as the assignment that it is
  have hwritten : List.Forall₂ (fun text a => Assignment.IsWritten a text) texts assignments :=
    (mapM_eq_ok_iff.1 hread).imp fun _ _ => Assignment.isWritten_of_ofString
  constructor
  case nodup => exact nodup_foldl_assign List.nodup_nil
  case mem_rules =>
    intro rule
    rw [mem_map_fst_foldl_assign hwritten]
    simp
  case value?_eq =>
    intro rule key value
    rw [value?_foldl_assign hwritten]
    simp [value?]

/-- Texts can be read if each of them is an assignment. -/
theorem exists_ofAssignments_eq_ok_iff {texts : List String} :
    (∃ overrides, ofAssignments texts = .ok overrides) ↔
      ∀ text ∈ texts, ∃ a, Assignment.IsWritten a text := by
  simp only [← Assignment.ofString_eq_ok_iff, ← exists_mapM_eq_ok_iff, ofAssignments, bind_eq_ok_iff]
  constructor
  · rintro ⟨_, assignments, hread, -⟩
    exact ⟨assignments, hread⟩
  · rintro ⟨assignments, hread⟩
    exact ⟨_, assignments, hread, rfl⟩

/-! ## Reordering -/

/-- Two neighbours change places that do not assign to the same key of the same rule. -/
inductive Swapped : List String → List String → Prop where
  | intro (before : List String) {a b : String} (after : List String)
      (h : ∀ rule key v w, Assignment.IsWritten ⟨rule, key, v⟩ a → ¬ Assignment.IsWritten ⟨rule, key, w⟩ b) :
      Swapped (before ++ a :: b :: after) (before ++ b :: a :: after)

/-- The texts stay the same, in another order. -/
private theorem Swapped.perm {texts swapped : List String} (h : Swapped texts swapped) : texts.Perm swapped := by
  obtain ⟨before, after, -⟩ := h
  exact (List.Perm.swap _ _ after).append_left before

/-- The last text that assigns a property stays the last. -/
private theorem Swapped.lastAssigned_iff {texts swapped : List String} (h : Swapped texts swapped)
    (rule key value : String) :
    LastAssigned texts rule key value ↔ LastAssigned swapped rule key value := by
  obtain ⟨before, after, hdiffer⟩ := h
  next a b =>
  -- at most one of the two neighbours speaks of this key
  have hpair : LastAssigned [a, b] rule key value ↔ LastAssigned [b, a] rule key value := by
    have hab := @lastAssigned_append [a] [b] rule key value
    have hba := @lastAssigned_append [b] [a] rule key value
    simp only [List.singleton_append, lastAssigned_singleton] at hab hba
    rw [hab, hba]
    constructor
    · rintro (hb | ⟨ha, -⟩)
      · exact .inr ⟨hb, by simpa [Untouched] using fun v ha => hdiffer rule key v value ha hb⟩
      · exact .inl ha
    · rintro (ha | ⟨hb, -⟩)
      · exact .inr ⟨ha, by simpa [Untouched] using fun w => hdiffer rule key value w ha⟩
      · exact .inl hb
  -- silence does not depend on the order
  have hsilent : Untouched (a :: b :: after) rule key ↔ Untouched (b :: a :: after) rule key := by
    simp only [Untouched, List.forall_mem_cons]
    exact and_left_comm
  have hfirst := @lastAssigned_append [a, b] after rule key value
  have hsecond := @lastAssigned_append [b, a] after rule key value
  simp only [List.cons_append, List.nil_append] at hfirst hsecond
  rw [lastAssigned_append, lastAssigned_append, hfirst, hsecond, hpair, hsilent]

/-- Assignments that are reordered without passing one to the same property stay the same ones, and the last of
    each property stays the last. -/
theorem lastAssigned_iff_of_reordered {texts reordered : List String}
    (h : Relation.ReflTransGen Swapped texts reordered) :
    texts.Perm reordered ∧
      ∀ rule key value, LastAssigned texts rule key value ↔ LastAssigned reordered rule key value := by
  induction h with
  | refl => exact ⟨.refl texts, fun _ _ _ => Iff.rfl⟩
  | tail _ hswap ih =>
    exact ⟨ih.1.trans hswap.perm,
      fun rule key value => (ih.2 rule key value).trans (hswap.lastAssigned_iff rule key value)⟩

end Overrides

end JavaLint
