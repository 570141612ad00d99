import JavaLint.Proofs.Wildcard.Meaning
import JavaLint.Rule.Catalog

/-!
# File filters of more than one entry

A file filter is matched as a whole: against the path of a unit if any of its entries names a directory, and
otherwise against the file name. So a filter means the union of its entries if all or none of them name a
directory, or if the path is the file name; an entry without a directory that stands beside one with a
directory is matched against another text than it would be alone.

- `isEntry_intercalate`, `isMalformed_intercalate`: the entries of a list that is put together
- `filteredBy`: a rule with one filter and no other
- `appliesTo_onlyFiles`, `appliesTo_skipFiles`: what the filters of files decide
- `appliesTo_fileList`: which units a list of entries lets pass, and when it is the union of its entries
-/

namespace JavaLint

namespace Wildcard

/-! ## Lists put together from entries -/

/-- The text is one well-formed entry, with or without blanks around it. -/
def IsWellFormed (entry : String) : Prop :=
  ',' ∉ entry.toList ∧ ¬ IsMalformed entry

/-- A list put together from entries has the entries of each. -/
theorem isEntry_intercalate {entries : List String} (hne : entries ≠ [])
    (h : ∀ entry ∈ entries, ',' ∉ entry.toList) {core : String} :
    IsEntry (",".intercalate entries) core ↔ ∃ entry ∈ entries, IsEntry entry core := by
  have hcomma : ",".toList = [','] := rfl
  -- an entry alone is not cut, as there is no comma in it
  have hsingle : ∀ entry ∈ entries, entry.toList.splitOn ',' = [entry.toList] := by
    intro entry hentry
    have hsplit := Text.splitOn_intercalate hcomma (List.cons_ne_nil entry []) (by simpa using h entry hentry)
    simpa using hsplit
  simp only [IsEntry, Text.splitOn_intercalate hcomma hne h, List.mem_map, exists_exists_and_eq_and]
  constructor
  · rintro ⟨entry, hentry, htrim⟩
    exact ⟨entry, hentry, entry.toList, by simp [hsingle entry hentry], htrim⟩
  · rintro ⟨entry, hentry, part, hpart, htrim⟩
    rw [hsingle entry hentry, List.mem_singleton] at hpart
    exact ⟨entry, hentry, hpart ▸ htrim⟩

/-- A list put together from entries is malformed if one of them is. -/
theorem isMalformed_intercalate {entries : List String} (hne : entries ≠ [])
    (h : ∀ entry ∈ entries, ',' ∉ entry.toList) :
    IsMalformed (",".intercalate entries) ↔ ∃ entry ∈ entries, IsMalformed entry := by
  simp only [IsMalformed, isEntry_intercalate hne h]
  constructor
  · rintro ⟨core, ⟨entry, hentry, hcore⟩, hbad⟩
    exact ⟨entry, hentry, core, hcore, hbad⟩
  · rintro ⟨entry, hentry, core, hcore, hbad⟩
    exact ⟨core, ⟨entry, hentry, hcore⟩, hbad⟩

end Wildcard

namespace Rule

open Wildcard

/-! ## Rules with one filter -/

/-- The rule with this one filter and no other. -/
def filteredBy (rule : Rule) (which : Filter) (text : String) : Rule :=
  { rule with
    properties :=
      { rule.properties with
        onlyFiles := .null, skipFiles := .null, onlyClasses := .null, skipClasses := .null }.set
          (.filter which) (.text text) }

/-- A text that can be read is not empty, so the filter is asked. -/
private theorem passes_matchesFile {text : String} {list : WildcardList} (h : WildcardList.ofString text = .ok list)
    (expected : Bool) (u : SourceUnit) :
    passes (.text text) expected (matchesFile · u) = .ok (list.isMatch (fileSubject list u) == expected) := by
  have hset : (Setting.text text).isSet = true := by
    by_cases hempty : text = ""
    · subst hempty
      exact nomatch h
    · simpa [Setting.isSet] using hempty
  rw [passes, if_pos hset, matchesFile, WildcardList.ofSetting, h]
  rfl

/-- A filter of files to look at lets pass what it matches. -/
theorem appliesTo_onlyFiles {text : String} {list : WildcardList} (h : WildcardList.ofString text = .ok list)
    (rule : Rule) (u : SourceUnit) :
    (rule.filteredBy .onlyFiles text).appliesTo u = .ok (list.isMatch (fileSubject list u)) := by
  have hpass := passes_matchesFile h true u
  simp only [appliesTo, filteredBy, Properties.set, hpass]
  -- no other filter is set, with or without a primary type
  cases list.isMatch (fileSubject list u) <;> cases u.primaryType? <;> rfl

/-- A filter of files to skip lets pass what it does not match. -/
theorem appliesTo_skipFiles {text : String} {list : WildcardList} (h : WildcardList.ofString text = .ok list)
    (rule : Rule) (u : SourceUnit) :
    (rule.filteredBy .skipFiles text).appliesTo u = .ok (!list.isMatch (fileSubject list u)) := by
  have hpass := passes_matchesFile h false u
  simp only [appliesTo, filteredBy, Properties.set, hpass]
  cases list.isMatch (fileSubject list u) <;> cases u.primaryType? <;> rfl

/-! ## Lists of entries -/

/-- What the entries of a filter are matched against: the path if one of them names a directory, and else the
    file name. -/
def subjectOf (entries : List String) (u : SourceUnit) : String :=
  if ∃ entry ∈ entries, '/' ∈ entry.toList then u.path else u.fileName

/-- The entry, without the blanks around it, matches the text. -/
def EntryMatches (entry subject : String) : Prop :=
  ∃ core, IsEntry entry core ∧ Matches core.toList subject.toList

/-- A list of well-formed entries can be read, and it matches a unit if one of its entries does. -/
private theorem exists_ofString_intercalate {entries : List String} (hne : entries ≠ [])
    (hformed : ∀ entry ∈ entries, IsWellFormed entry) :
    ∃ list, WildcardList.ofString (",".intercalate entries) = .ok list ∧
      ∀ u, list.isMatch (fileSubject list u) = true ↔
        ∃ entry ∈ entries, EntryMatches entry (subjectOf entries u) := by
  have hcomma : ∀ entry ∈ entries, ',' ∉ entry.toList := fun entry hentry => (hformed entry hentry).1
  -- the list is well-formed, as each of its entries is
  have hread : ¬ IsMalformed (",".intercalate entries) := by
    rw [isMalformed_intercalate hne hcomma]
    rintro ⟨entry, hentry, hbad⟩
    exact (hformed entry hentry).2 hbad
  cases hlist : WildcardList.ofString (",".intercalate entries) with
  | error e => exact absurd (WildcardList.exists_ofString_eq_error_iff.1 ⟨e, hlist⟩) hread
  | ok list =>
    refine ⟨list, rfl, fun u => ?_⟩
    -- the slash is looked for in the whole text of the list
    have hsubject : fileSubject list u = subjectOf entries u := by
      have htext : list.text = ",".intercalate entries := by rw [WildcardList.ofString_eq_ok hlist]
      simp only [fileSubject, subjectOf, htext, List.contains_iff_mem,
        Text.mem_intercalate (show ",".toList = [','] from rfl) (show '/' ≠ ',' by decide)]
    rw [WildcardList.isMatch_iff hlist, hsubject]
    simp only [isEntry_intercalate hne hcomma, EntryMatches]
    constructor
    · rintro ⟨core, ⟨entry, hentry, hcore⟩, hmatch⟩
      exact ⟨entry, hentry, core, hcore, hmatch⟩
    · rintro ⟨entry, hentry, core, hcore, hmatch⟩
      exact ⟨core, ⟨entry, hentry, hcore⟩, hmatch⟩

/-- The rule applies to the units that one of the entries matches. -/
private theorem appliesTo_onlyFiles_iff {entries : List String} (hne : entries ≠ [])
    (hformed : ∀ entry ∈ entries, IsWellFormed entry) (rule : Rule) (u : SourceUnit) :
    (rule.filteredBy .onlyFiles (",".intercalate entries)).appliesTo u = .ok true ↔
      ∃ entry ∈ entries, EntryMatches entry (subjectOf entries u) := by
  obtain ⟨list, hlist, hmatch⟩ := exists_ofString_intercalate hne hformed
  rw [appliesTo_onlyFiles hlist, Except.ok.injEq, hmatch]

/-- The rule does not apply to the units that one of the entries matches. -/
private theorem appliesTo_skipFiles_iff {entries : List String} (hne : entries ≠ [])
    (hformed : ∀ entry ∈ entries, IsWellFormed entry) (rule : Rule) (u : SourceUnit) :
    (rule.filteredBy .skipFiles (",".intercalate entries)).appliesTo u = .ok false ↔
      ∃ entry ∈ entries, EntryMatches entry (subjectOf entries u) := by
  obtain ⟨list, hlist, hmatch⟩ := exists_ofString_intercalate hne hformed
  rw [appliesTo_skipFiles hlist, Except.ok.injEq, Bool.not_eq_false', hmatch]

/-- All entries name a directory, or none does, or the path of the unit is its file name. -/
def IsUnmixed (entries : List String) (u : SourceUnit) : Prop :=
  (∀ entry ∈ entries, '/' ∈ entry.toList) ∨ (∀ entry ∈ entries, '/' ∉ entry.toList) ∨ u.path = u.fileName

/-- In a filter that is not mixed every entry is matched against what it would be matched against alone. -/
private theorem IsUnmixed.subjectOf_singleton {entries : List String} {u : SourceUnit} (h : IsUnmixed entries u)
    {entry : String} (hentry : entry ∈ entries) : subjectOf [entry] u = subjectOf entries u := by
  simp only [subjectOf, List.mem_singleton, exists_eq_left]
  -- alone and in the list, a directory is named by both or by none
  rcases h with hall | hnone | hpath
  · rw [if_pos (hall entry hentry), if_pos ⟨entry, hentry, hall entry hentry⟩]
  · rw [if_neg (hnone entry hentry), if_neg (by simpa using hnone)]
  · simp [hpath]

/-- A filter of several entries lets pass, or skips, the units that one of its entries matches. All entries
    are matched against the same text, so the filter is the union of its entries if it is not mixed. -/
theorem appliesTo_fileList (rule : Rule) (u : SourceUnit) {entries : List String} (hne : entries ≠ [])
    (hformed : ∀ entry ∈ entries, IsWellFormed entry) :
    ((rule.filteredBy .onlyFiles (",".intercalate entries)).appliesTo u = .ok true ↔
      ∃ entry ∈ entries, EntryMatches entry (subjectOf entries u)) ∧
    ((rule.filteredBy .skipFiles (",".intercalate entries)).appliesTo u = .ok false ↔
      ∃ entry ∈ entries, EntryMatches entry (subjectOf entries u)) ∧
    (IsUnmixed entries u →
      ((rule.filteredBy .onlyFiles (",".intercalate entries)).appliesTo u = .ok true ↔
        ∃ entry ∈ entries, (rule.filteredBy .onlyFiles entry).appliesTo u = .ok true) ∧
      ((rule.filteredBy .skipFiles (",".intercalate entries)).appliesTo u = .ok false ↔
        ∃ entry ∈ entries, (rule.filteredBy .skipFiles entry).appliesTo u = .ok false)) := by
  have honly := appliesTo_onlyFiles_iff hne hformed rule u
  have hskip := appliesTo_skipFiles_iff hne hformed rule u
  refine ⟨honly, hskip, fun hunmixed => ?_⟩
  rw [honly, hskip]
  -- one entry alone is a list of one entry
  have hsingle : ∀ entry ∈ entries, ∀ other ∈ [entry], IsWellFormed other := by
    intro entry hentry other hother
    rw [List.mem_singleton.1 hother]
    exact hformed entry hentry
  constructor
  all_goals
    refine exists_congr fun entry => and_congr_right fun hentry => ?_
  · have h := appliesTo_onlyFiles_iff (List.cons_ne_nil entry []) (hsingle entry hentry) rule u
    simpa [hunmixed.subjectOf_singleton hentry] using h.symm
  · have h := appliesTo_skipFiles_iff (List.cons_ne_nil entry []) (hsingle entry hentry) rule u
    simpa [hunmixed.subjectOf_singleton hentry] using h.symm

/-- A unit in a directory. -/
def unitInDirectory : SourceUnit :=
  ⟨"lib/Foo.java", [], ⟨"program", none, ⟨0, 0, 0, 0, 0, 0⟩, [], []⟩⟩

/-- An entry that can be read is well-formed. -/
private theorem isWellFormed_of_ofString {entry : String} {list : WildcardList} (hcomma : ',' ∉ entry.toList)
    (h : WildcardList.ofString entry = .ok list) : IsWellFormed entry := by
  refine ⟨hcomma, fun hbad => ?_⟩
  obtain ⟨e, he⟩ := WildcardList.exists_ofString_eq_error_iff.2 hbad
  rw [h] at he
  cases he

/-- Two entries without a directory: the second matches the file name, together with the first and alone. -/
theorem appliesTo_fileList_twoNames :
    (duplicateImport.filteredBy .onlyFiles (",".intercalate ["Bar.java", " F* "])).appliesTo
      unitInDirectory = .ok true ∧
    ∃ entry ∈ ["Bar.java", " F* "],
      (duplicateImport.filteredBy .onlyFiles entry).appliesTo unitInDirectory = .ok true := by
  have hformed : ∀ entry ∈ ["Bar.java", " F* "], IsWellFormed entry := by
    simp only [List.forall_mem_cons]
    exact ⟨isWellFormed_of_ofString (by decide) rfl, isWellFormed_of_ofString (by decide) rfl, by simp⟩
  -- none of the two names a directory
  have hunmixed : IsUnmixed ["Bar.java", " F* "] unitInDirectory := .inr (.inl (by decide))
  have hunion := (appliesTo_fileList duplicateImport unitInDirectory (by simp) hformed).2.2 hunmixed
  exact ⟨rfl, hunion.1.1 rfl⟩

/-- A mixed filter is not the union of its entries: the first entry alone matches the file name, but beside
    an entry with a directory it is matched against the path. -/
theorem appliesTo_mixedList :
    ¬ ((duplicateImport.filteredBy .onlyFiles (",".intercalate ["Foo.java", "src/*"])).appliesTo
        unitInDirectory = .ok true ↔
      ∃ entry ∈ ["Foo.java", "src/*"],
        (duplicateImport.filteredBy .onlyFiles entry).appliesTo unitInDirectory = .ok true) ∧
    ¬ ((duplicateImport.filteredBy .skipFiles (",".intercalate ["Foo.java", "src/*"])).appliesTo
        unitInDirectory = .ok false ↔
      ∃ entry ∈ ["Foo.java", "src/*"],
        (duplicateImport.filteredBy .skipFiles entry).appliesTo unitInDirectory = .ok false) := by
  constructor
  all_goals
    intro hunion
    -- the first entry alone matches, so the list would have to match too
    have hlist := hunion.2 ⟨"Foo.java", List.mem_cons_self, rfl⟩
    exact nomatch hlist

end Rule

end JavaLint
