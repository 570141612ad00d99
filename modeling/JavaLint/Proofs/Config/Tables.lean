import JavaLint.Proofs.Config.Assignments
import Mathlib.Data.List.Induction

/-!
# Reading assignments and writing them down

Reading a list of assignments fails at the first one that is malformed. Otherwise it gives a table in which rules,
and the keys of each rule, stand in the order in which they first came. A table that is written down, one assignment
for each of its values, is read back as it was.

- `Assignment.IsMalformed`, `Assignment.ofString_eq_error_iff`: texts that are no assignments
- `ofAssignments_eq_error_iff`: the first of them is the error
- `Keyed.map_fst_foldl`: a table keeps its keys in the order in which they first came
- `lookup_foldl_assign`: the table of one rule comes from the assignments to this rule
- `foldl_assign_toAssignments`: the assignments of a table give the table
- `ofAssignments_table`: all of it together
-/

namespace JavaLint

namespace Overrides

/-! ## Malformed assignments -/

/-- The text has no equals sign, or what stands before the first one, without the blanks around it, has no dot, or
    has nothing before its first dot or nothing behind it. -/
def Assignment.IsMalformed (text : String) : Prop :=
  '=' ∉ text.toList ∨
    ∃ target value core, text.toList = target ++ '=' :: value ∧ '=' ∉ target ∧ Text.IsTrimmed target core ∧
      ('.' ∉ core ∨ ∃ rule key, core = rule ++ '.' :: key ∧ '.' ∉ rule ∧ (rule = [] ∨ key = []))

/-- A text that cannot be read is malformed, and the error names it. -/
private theorem Assignment.isMalformed_of_ofString {text : String} {e : ConfigError} (h : ofString text = .error e) :
    e = .malformedAssignment text ∧ IsMalformed text := by
  rw [ofString] at h
  -- by the three checks: the equals sign, the dot, and the two names
  split at h
  next hcut =>
    exact ⟨(Except.error.inj h).symm, .inl (Text.cutFirst?_eq_none_iff.1 hcut)⟩
  next target value hcut =>
  obtain ⟨htext, heq⟩ := Text.cutFirst?_eq_some_iff.1 hcut
  have htrimmed : Text.IsTrimmed target.toList (Text.trim target).toList := by
    rw [Text.isTrimmed_iff, Text.toList_trim]
  split at h
  next hdot =>
    exact ⟨(Except.error.inj h).symm, .inr ⟨target.toList, value.toList, _, htext, heq, htrimmed,
      .inl (Text.cutFirst?_eq_none_iff.1 hdot)⟩⟩
  next rule key hdot =>
  obtain ⟨hparts, hrule⟩ := Text.cutFirst?_eq_some_iff.1 hdot
  split at h
  next hempty =>
    simp only [Bool.or_eq_true, String.isEmpty_iff] at hempty
    refine ⟨(Except.error.inj h).symm, .inr ⟨target.toList, value.toList, _, htext, heq, htrimmed,
      .inr ⟨rule.toList, key.toList, hparts, hrule, ?_⟩⟩⟩
    exact hempty.imp (fun h => by rw [h]; rfl) (fun h => by rw [h]; rfl)
  · cases h

/-- A malformed text says nothing. -/
private theorem Assignment.IsMalformed.not_isWritten {text : String} (h : IsMalformed text) (a : Assignment) :
    ¬ a.IsWritten text := by
  rintro ⟨target, value, htext, heq, htarget, hdot, hrule, hkey, -⟩
  rcases h with hnone | ⟨target', value', core, htext', heq', hcore, hbad⟩
  · rw [htext] at hnone
    exact hnone (by simp)
  · -- both ways of cutting the text are the same
    have hsame : some (target, value) = some (target', value') := by
      rw [← Text.cutFirstChars?_eq_some_iff.2 ⟨htext, heq⟩, Text.cutFirstChars?_eq_some_iff.2 ⟨htext', heq'⟩]
    obtain ⟨rfl, rfl⟩ := Prod.mk.inj (Option.some.inj hsame)
    obtain rfl : a.rule.toList ++ '.' :: a.key.toList = core :=
      (Text.isTrimmed_iff.1 htarget).symm.trans (Text.isTrimmed_iff.1 hcore)
    rcases hbad with hnone | ⟨rule, key, hparts, hrule', hempty⟩
    · exact hnone (by simp)
    · have hsame : some (a.rule.toList, a.key.toList) = some (rule, key) := by
        rw [← Text.cutFirstChars?_eq_some_iff.2 ⟨rfl, hdot⟩, Text.cutFirstChars?_eq_some_iff.2 ⟨hparts, hrule'⟩]
      obtain ⟨rfl, rfl⟩ := Prod.mk.inj (Option.some.inj hsame)
      rcases hempty with hnil | hnil
      · exact hrule (String.toList_eq_nil_iff.1 hnil)
      · exact hkey (String.toList_eq_nil_iff.1 hnil)

/-- A text is malformed exactly if it says nothing. -/
private theorem Assignment.isMalformed_iff {text : String} :
    IsMalformed text ↔ ¬ ∃ a : Assignment, a.IsWritten text := by
  constructor
  · rintro h ⟨a, hwritten⟩
    exact h.not_isWritten a hwritten
  · intro h
    cases hread : ofString text with
    | error e => exact (isMalformed_of_ofString hread).2
    | ok a => exact absurd ⟨a, isWritten_of_ofString hread⟩ h

/-- A text cannot be read exactly if it is malformed. -/
theorem Assignment.ofString_eq_error_iff {text : String} {e : ConfigError} :
    ofString text = .error e ↔ e = .malformedAssignment text ∧ IsMalformed text := by
  constructor
  · exact isMalformed_of_ofString
  · rintro ⟨rfl, h⟩
    cases hread : ofString text with
    | error e => rw [(isMalformed_of_ofString hread).1]
    | ok a => exact absurd (isWritten_of_ofString hread) (h.not_isWritten a)

/-- The error names the first text that is malformed. -/
theorem ofAssignments_eq_error_iff {texts : List String} {e : ConfigError} :
    ofAssignments texts = .error e ↔ ∃ before text after, texts = before ++ text :: after ∧
      (∀ earlier ∈ before, ¬ Assignment.IsMalformed earlier) ∧ Assignment.IsMalformed text ∧
      e = .malformedAssignment text := by
  -- only reading can fail, not the table
  have hread : ofAssignments texts = .error e ↔ texts.mapM Assignment.ofString = .error e := by
    rw [ofAssignments]
    cases texts.mapM Assignment.ofString <;> simp [bind, Except.bind, pure, Except.pure]
  -- what is not malformed can be read
  have hfine : ∀ text, (∃ a, Assignment.ofString text = .ok a) ↔ ¬ Assignment.IsMalformed text := by
    intro text
    simp only [Assignment.ofString_eq_ok_iff, Assignment.isMalformed_iff, not_not]
  simp only [hread, mapM_eq_error_iff, hfine, Assignment.ofString_eq_error_iff, and_comm]

/-- Texts cannot be read exactly if one of them is malformed. -/
private theorem exists_ofAssignments_eq_error_iff {texts : List String} :
    (∃ e, ofAssignments texts = .error e) ↔ ∃ text ∈ texts, Assignment.IsMalformed text := by
  constructor
  · rintro ⟨e, h⟩
    obtain ⟨before, text, after, rfl, -, hmalformed, -⟩ := ofAssignments_eq_error_iff.1 h
    exact ⟨text, by simp, hmalformed⟩
  · rintro ⟨text, hmem, hmalformed⟩
    cases hread : ofAssignments texts with
    | error e => exact ⟨e, rfl⟩
    -- if all texts were read, each is written as an assignment
    | ok overrides =>
      obtain ⟨a, ha⟩ := exists_ofAssignments_eq_ok_iff.1 ⟨overrides, hread⟩ text hmem
      exact absurd ha (hmalformed.not_isWritten a)

end Overrides

/-! ## The order of keys -/

/-- A value that is added at the end stays only if it is new. -/
private theorem eraseDups_concat (l : List String) (x : String) :
    (l ++ [x]).eraseDups = if x ∈ l then l.eraseDups else l.eraseDups ++ [x] := by
  rw [List.eraseDups_append, List.cons_removeAll]
  by_cases h : x ∈ l <;> simp [h, List.removeAll, List.eraseDups_cons]

namespace Keyed

/-- The last pair is inserted last. -/
private theorem ofPairs_concat {α : Type} (pairs : List (String × α)) (key : String) (value : α) :
    ofPairs (pairs ++ [(key, value)]) = (ofPairs pairs).insert key value := by
  rw [ofPairs, List.foldl_append]
  rfl

/-- If each step puts a value under the key of its item, the keys stand in the order in which they first came. -/
theorem map_fst_foldl {α β : Type} {key : β → String} {step : Keyed α → β → Keyed α}
    (h : ∀ table x, ∃ value, step table x = table.insert (key x) value) (items : List β) :
    (items.foldl step []).map Prod.fst = (items.map key).eraseDups := by
  -- from the end, as it is the last item that finds its key in the table or not
  induction items using List.reverseRecOn with
  | nil => rfl
  | append_singleton items x ih =>
    obtain ⟨value, hstep⟩ := h (items.foldl step []) x
    rw [List.foldl_append, List.foldl_cons, List.foldl_nil, hstep, map_fst_insert, ih, List.map_append,
      List.map_singleton, eraseDups_concat]
    simp only [List.mem_eraseDups]

/-- The keys of a table of pairs stand in the order in which they first came. -/
private theorem map_fst_ofPairs {α : Type} (pairs : List (String × α)) :
    (ofPairs pairs).map Prod.fst = (pairs.map Prod.fst).eraseDups :=
  map_fst_foldl (fun _ pair => ⟨pair.2, rfl⟩) pairs

end Keyed

namespace Overrides

/-- The rules stand in the order in which they were first assigned to. -/
private theorem map_fst_foldl_assign (assignments : List Assignment) :
    (assignments.foldl assign []).map Prod.fst = (assignments.map (·.rule)).eraseDups :=
  Keyed.map_fst_foldl (fun _ _ => ⟨_, rfl⟩) assignments

/-- The table of a rule comes from the assignments to this rule. -/
theorem lookup_foldl_assign (assignments : List Assignment) (rule : String) :
    ((assignments.foldl assign []).lookup rule).getD [] =
      Keyed.ofPairs ((assignments.filter (·.rule = rule)).map fun a => (a.key, a.value)) := by
  induction assignments using List.reverseRecOn with
  | nil => rfl
  | append_singleton assignments a ih =>
    rw [List.foldl_append, List.foldl_cons, List.foldl_nil, assign, List.filter_append, List.map_append]
    by_cases hrule : a.rule = rule
    · -- the value goes into the table that the rule has so far
      subst hrule
      rw [Keyed.lookup_insert_self, Option.getD_some, ih, List.filter_singleton]
      simp [Keyed.ofPairs_concat]
    · rw [Keyed.lookup_insert_ne _ _ (Ne.symm hrule), ih, List.filter_singleton]
      simp [hrule]

/-- The keys of each rule stand in the order in which they were first assigned to. -/
private theorem keys_foldl_assign {assignments : List Assignment} {entry : String × Keyed String}
    (h : entry ∈ assignments.foldl assign []) :
    entry.2.map Prod.fst = ((assignments.filter (·.rule = entry.1)).map (·.key)).eraseDups := by
  have hnodup : ((assignments.foldl assign []).map Prod.fst).Nodup := nodup_foldl_assign List.nodup_nil
  -- the rule has one entry, so this is the one that is looked up
  have hlookup := (Keyed.mem_iff_lookup hnodup).1 h
  have hvalues := lookup_foldl_assign assignments entry.1
  rw [hlookup, Option.getD_some] at hvalues
  rw [hvalues, Keyed.map_fst_ofPairs, List.map_map]
  rfl

end Overrides

/-! ## Writing a table down -/

namespace Keyed

variable {α : Type}

/-- A key that is not in the first part is inserted in the second. -/
private theorem insert_append {key : String} {first : Keyed α} (h : key ∉ first.map Prod.fst) (value : α)
    (second : Keyed α) : insert key value (first ++ second) = first ++ insert key value second := by
  induction first with
  | nil => rfl
  | cons entry rest ih =>
    obtain ⟨k, v⟩ := entry
    rw [List.map_cons, List.mem_cons, not_or] at h
    rw [List.cons_append, insert, if_neg (by simpa using Ne.symm h.1), ih h.2, List.cons_append]

/-- A new key comes last. -/
private theorem insert_of_not_mem {key : String} {table : Keyed α} (h : key ∉ table.map Prod.fst) (value : α) :
    table.insert key value = table ++ [(key, value)] := by
  have happend := insert_append h value []
  rwa [List.append_nil] at happend

/-- A key that comes next was not there before. -/
private theorem not_mem_of_nodup {key : String} {value : α} {first rest : Keyed α}
    (h : ((first ++ (key, value) :: rest).map Prod.fst).Nodup) : key ∉ first.map Prod.fst := by
  rw [List.map_append, List.map_cons] at h
  exact fun hmem => List.disjoint_of_nodup_append h hmem List.mem_cons_self

/-- A key that is not in the first part is looked up in the second. -/
private theorem lookup_append_of_not_mem {key : String} {first : Keyed α} (h : key ∉ first.map Prod.fst)
    (second : Keyed α) : (first ++ second).lookup key = second.lookup key := by
  have hnone : first.lookup key = none := by
    rw [Option.eq_none_iff_forall_ne_some]
    intro value hvalue
    exact h (exists_lookup_eq_some_iff.1 ⟨value, hvalue⟩)
  rw [List.lookup_append, hnone, Option.none_or]

end Keyed

namespace Overrides

/-- The assignments of a table, rule by rule. -/
def toAssignments (overrides : Overrides String) : List Assignment :=
  overrides.flatMap fun (rule, values) => values.map fun (key, value) => ⟨rule, key, value⟩

/-- The assignments to the first rule, and then those to the others. -/
private theorem toAssignments_cons (rule : String) (values : Keyed String) (rest : Overrides String) :
    toAssignments ((rule, values) :: rest) =
      (values.map fun (key, value) => ⟨rule, key, value⟩) ++ rest.toAssignments :=
  List.flatMap_cons

/-- An assignment as it is written. -/
def Assignment.text (a : Assignment) : String :=
  a.rule ++ "." ++ a.key ++ "=" ++ a.value

/-- The rule has a name without dots and equals signs that starts with no blank, the key has a name without equals
    signs that ends with no blank, and the value has no blanks around it. -/
structure Assignment.IsPlain (a : Assignment) : Prop where
  rule_ne : a.rule ≠ ""
  dot_not_mem_rule : '.' ∉ a.rule.toList
  equals_not_mem_rule : '=' ∉ a.rule.toList
  head_rule : ∀ c ∈ a.rule.toList.head?, Text.isBlank c = false
  key_ne : a.key ≠ ""
  equals_not_mem_key : '=' ∉ a.key.toList
  last_key : ∀ c ∈ a.key.toList.getLast?, Text.isBlank c = false
  value_trimmed : Text.IsTrimmed a.value.toList a.value.toList

/-- The same with conditions that can be evaluated. -/
private theorem Assignment.isPlain_iff {a : Assignment} :
    a.IsPlain ↔ a.rule ≠ "" ∧ '.' ∉ a.rule.toList ∧ '=' ∉ a.rule.toList ∧
      a.rule.toList.head?.all (!Text.isBlank ·) = true ∧ a.key ≠ "" ∧ '=' ∉ a.key.toList ∧
      a.key.toList.getLast?.all (!Text.isBlank ·) = true ∧ Text.trimChars a.value.toList = a.value.toList := by
  have hall : ∀ end? : Option Char, end?.all (!Text.isBlank ·) = true ↔ ∀ c ∈ end?, Text.isBlank c = false := by
    intro end?
    cases end? <;> simp
  rw [hall, hall, ← Text.isTrimmed_iff]
  exact ⟨fun ⟨h₁, h₂, h₃, h₄, h₅, h₆, h₇, h₈⟩ => ⟨h₁, h₂, h₃, h₄, h₅, h₆, h₇, h₈⟩,
    fun ⟨h₁, h₂, h₃, h₄, h₅, h₆, h₇, h₈⟩ => ⟨h₁, h₂, h₃, h₄, h₅, h₆, h₇, h₈⟩⟩

instance (a : Assignment) : Decidable a.IsPlain :=
  decidable_of_iff _ Assignment.isPlain_iff.symm

/-- Such an assignment says what it was written for. -/
private theorem Assignment.IsPlain.isWritten {a : Assignment} (h : a.IsPlain) : a.IsWritten a.text := by
  have hrule : a.rule.toList ≠ [] := fun hnil => h.rule_ne (String.toList_eq_nil_iff.1 hnil)
  have hkey : a.key.toList ≠ [] := fun hnil => h.key_ne (String.toList_eq_nil_iff.1 hnil)
  -- the first equals sign is the one that was written, and the first dot too
  refine ⟨a.rule.toList ++ '.' :: a.key.toList, a.value.toList, ?_, ?_, ⟨?_, ?_, ?_⟩, h.dot_not_mem_rule,
    h.rule_ne, h.key_ne, h.value_trimmed⟩
  · simp [text]
  · simp [h.equals_not_mem_rule, h.equals_not_mem_key]
  · exact ⟨[], [], by simp, by simp, by simp⟩
  · intro c hc
    rw [List.head?_append_of_ne_nil _ hrule] at hc
    exact h.head_rule c hc
  · intro c hc
    obtain ⟨d, hd⟩ := Option.ne_none_iff_exists'.1 (List.getLast?_eq_none_iff.not.2 hkey)
    -- the last character of the target is that of the key
    have hlast : (a.rule.toList ++ '.' :: a.key.toList).getLast? = a.key.toList.getLast? := by
      rw [List.getLast?_append, List.getLast?_cons, hd]
      rfl
    rw [hlast] at hc
    exact h.last_key c hc

/-- Each rule stands in the table once and has values, one for each key, and all names and values can be written. -/
structure IsPlain (overrides : Overrides String) : Prop where
  nodup_rules : (overrides.map Prod.fst).Nodup
  nodup_keys : ∀ entry ∈ overrides, (entry.2.map Prod.fst).Nodup
  values_ne_nil : ∀ entry ∈ overrides, entry.2 ≠ []
  plain : ∀ a ∈ overrides.toAssignments, a.IsPlain

instance (overrides : Overrides String) : Decidable overrides.IsPlain :=
  decidable_of_iff ((overrides.map Prod.fst).Nodup ∧ (∀ entry ∈ overrides, (entry.2.map Prod.fst).Nodup) ∧
      (∀ entry ∈ overrides, entry.2 ≠ []) ∧ ∀ a ∈ overrides.toAssignments, a.IsPlain)
    ⟨fun ⟨h₁, h₂, h₃, h₄⟩ => ⟨h₁, h₂, h₃, h₄⟩, fun ⟨h₁, h₂, h₃, h₄⟩ => ⟨h₁, h₂, h₃, h₄⟩⟩

/-- The rest of the values of a rule join those it has, at the end of the table. -/
private theorem foldl_assign_values {done : Overrides String} {rule : String} (hrule : rule ∉ done.map Prod.fst)
    {values rest : Keyed String} (hkeys : ((values ++ rest).map Prod.fst).Nodup) :
    (rest.map fun (key, value) => (⟨rule, key, value⟩ : Assignment)).foldl assign (done ++ [(rule, values)]) =
      done ++ [(rule, values ++ rest)] := by
  -- each value moves from those that are left to those that the rule has
  induction rest generalizing values with
  | nil => simp
  | cons pair rest ih =>
    obtain ⟨key, value⟩ := pair
    have hkey : key ∉ values.map Prod.fst := Keyed.not_mem_of_nodup hkeys
    -- the key is new, so its value comes last
    have hstep : assign (done ++ [(rule, values)]) ⟨rule, key, value⟩ =
        done ++ [(rule, values ++ [(key, value)])] := by
      rw [assign, Keyed.lookup_append_of_not_mem hrule, Keyed.insert_append hrule]
      simp [Keyed.insert, Keyed.insert_of_not_mem hkey]
    rw [List.map_cons, List.foldl_cons, hstep, ih (by simpa using hkeys), List.append_assoc]
    rfl

/-- The assignments of a table, made to a table of other rules, add it at the end. -/
theorem foldl_assign_toAssignments {overrides done : Overrides String}
    (hrules : ((done ++ overrides).map Prod.fst).Nodup)
    (hkeys : ∀ entry ∈ overrides, (entry.2.map Prod.fst).Nodup) (hvalues : ∀ entry ∈ overrides, entry.2 ≠ []) :
    overrides.toAssignments.foldl assign done = done ++ overrides := by
  induction overrides generalizing done with
  | nil => simp [toAssignments]
  | cons entry rest ih =>
    obtain ⟨rule, values⟩ := entry
    obtain ⟨hfirst, hkeysRest⟩ := List.forall_mem_cons.1 hkeys
    obtain ⟨hne, hvaluesRest⟩ := List.forall_mem_cons.1 hvalues
    have hrule : rule ∉ done.map Prod.fst := Keyed.not_mem_of_nodup hrules
    -- the first value opens the entry of the rule, and the others join it
    obtain ⟨⟨key, value⟩, more, rfl⟩ := List.exists_cons_of_ne_nil hne
    have hopen : assign done ⟨rule, key, value⟩ = done ++ [(rule, [(key, value)])] := by
      have hnone := Keyed.lookup_append_of_not_mem hrule []
      rw [List.append_nil, List.lookup_nil] at hnone
      rw [assign, hnone, Keyed.insert_of_not_mem hrule]
      rfl
    rw [toAssignments_cons, List.map_cons, List.cons_append, List.foldl_cons, hopen, List.foldl_append,
      foldl_assign_values hrule (by simpa using hfirst), ih (by simpa using hrules) hkeysRest hvaluesRest,
      List.append_assoc]
    rfl

/-- A table that can be written is read back as it was. -/
private theorem IsPlain.ofAssignments_eq {overrides : Overrides String} (h : overrides.IsPlain) :
    ofAssignments (overrides.toAssignments.map Assignment.text) = .ok overrides := by
  -- each assignment is read as it was written
  have hread : (overrides.toAssignments.map Assignment.text).mapM Assignment.ofString =
      .ok overrides.toAssignments := by
    rw [mapM_eq_ok_iff, List.forall₂_map_left_iff, List.forall₂_same]
    exact fun a ha => Assignment.ofString_of_isWritten (h.plain a ha).isWritten
  have hfold : overrides.toAssignments.foldl assign [] = overrides :=
    foldl_assign_toAssignments h.nodup_rules h.nodup_keys h.values_ne_nil
  rw [ofAssignments, hread]
  exact congrArg Except.ok hfold

/-- Assignments are read exactly if none is malformed, and the error names the first that is. What is read has the
    last value of each key of each rule, with rules, and the keys of a rule, in the order in which they first come.
    A table that can be written as assignments is read back as it was. -/
theorem ofAssignments_table (texts : List String) :
    ((∃ e, ofAssignments texts = .error e) ↔ ∃ text ∈ texts, Assignment.IsMalformed text) ∧
    (∀ e, ofAssignments texts = .error e → ∃ before text after, texts = before ++ text :: after ∧
      (∀ earlier ∈ before, ¬ Assignment.IsMalformed earlier) ∧ Assignment.IsMalformed text ∧
      e = .malformedAssignment text) ∧
    ((∀ text ∈ texts, ¬ Assignment.IsMalformed text) → ∃ assignments overrides,
      List.Forall₂ (fun text a => Assignment.IsWritten a text) texts assignments ∧
      ofAssignments texts = .ok overrides ∧
      (∀ rule key value, overrides.value? rule key = some value ↔ LastAssigned texts rule key value) ∧
      overrides.map Prod.fst = (assignments.map (·.rule)).eraseDups ∧
      ∀ entry ∈ overrides,
        entry.2.map Prod.fst = ((assignments.filter (·.rule = entry.1)).map (·.key)).eraseDups) ∧
    ∀ overrides : Overrides String, overrides.IsPlain →
      ofAssignments (overrides.toAssignments.map Assignment.text) = .ok overrides := by
  refine ⟨exists_ofAssignments_eq_error_iff, fun e => ofAssignments_eq_error_iff.1, ?_,
    fun overrides => IsPlain.ofAssignments_eq⟩
  intro hfine
  simp only [Assignment.isMalformed_iff, not_not] at hfine
  obtain ⟨overrides, hread⟩ := exists_ofAssignments_eq_ok_iff.2 hfine
  have hholds := holds_of_ofAssignments hread
  -- reading goes through the assignments, so they are what the texts say
  obtain ⟨assignments, hmap, hfold⟩ := bind_eq_ok_iff.1 hread
  obtain rfl : assignments.foldl assign [] = overrides := Except.ok.inj hfold
  have hwritten := (mapM_eq_ok_iff.1 hmap).imp fun _ _ => Assignment.isWritten_of_ofString
  exact ⟨assignments, _, hwritten, hread, hholds.value?_eq, map_fst_foldl_assign assignments,
    fun entry => keys_foldl_assign⟩

/-- Names and values with every character that may stand in them. -/
def plainTable : Overrides String :=
  [("DuplicateImport", [("priority", "1=2.3"), (" a.b", "")]), ("Ab ", [("priority", "x")])]

/-- Assignments to two rules, one of which is made twice. -/
def repeatedTexts : List String := ["B.y=1", " A.x = 2 ", "B.x=3", "B.y= 5= "]

/-- Dots and equals signs are read back in a value, and the rules keep their order. -/
theorem ofAssignments_table_plainTable :
    plainTable.IsPlain ∧ ofAssignments (plainTable.toAssignments.map Assignment.text) = .ok plainTable ∧
      (∀ text ∈ repeatedTexts, ¬ Assignment.IsMalformed text) ∧
      ∃ overrides, ofAssignments repeatedTexts = .ok overrides ∧ overrides.map Prod.fst = ["B", "A"] ∧
        LastAssigned repeatedTexts "B" "y" "5=" := by
  have hplain : plainTable.IsPlain := by decide
  have hvalue : (ofAssignments repeatedTexts).toOption.map (fun o => (o.map Prod.fst, o.value? "B" "y")) =
      some (["B", "A"], some "5=") := by decide +kernel
  obtain ⟨herror, -, hread, hround⟩ := ofAssignments_table repeatedTexts
  -- a malformed text would have been an error, but reading gave a table
  have hfine : ∀ text ∈ repeatedTexts, ¬ Assignment.IsMalformed text := by
    intro text hmem hmalformed
    obtain ⟨e, he⟩ := herror.2 ⟨text, hmem, hmalformed⟩
    rw [he] at hvalue
    cases hvalue
  obtain ⟨assignments, overrides, -, hok, hlast, -⟩ := hread hfine
  rw [hok] at hvalue
  obtain ⟨hrules, hassigned⟩ := Prod.mk.inj (Option.some.inj hvalue)
  exact ⟨hplain, hround plainTable hplain, hfine, overrides, hok, hrules, (hlast "B" "y" "5=").1 hassigned⟩

end Overrides

end JavaLint
