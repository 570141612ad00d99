import JavaLint.Config.Override
import JavaLint.Proofs.Config.Assignments
import JavaLint.Proofs.Wildcard.Meaning

/-!
# What overrides do to the rules

The overrides of one rule are coerced property by property, and every property that is not given keeps its value.
Where no two rules share a name, applying overrides changes each rule by its own entry and by nothing else, and
succeeds exactly if every entry is accepted.

- `Rule.validate_eq_ok_iff`: a rule is valid if each of its properties is
- `Property.invalidFields_eq_nil_iff`, `Rule.get_override`: coercion of one rule's values
- `Config.applyOverride_of_accepts`, `Config.accepts_of_applyOverride`: one entry
- `Config.configure_eq_ok_iff`: all entries
-/

namespace JavaLint

/-! ## Valid properties -/

/-- An integer within bounds keeps to them. -/
private theorem Setting.le_of_toIntWithin [Coercion] {low high n : Int} {s : Setting}
    (h : toIntWithin low (some high) s = .ok n) : low ≤ n ∧ n ≤ high := by
  rw [toIntWithin] at h
  cases hread : Coercion.toInt s with
  | error fault => simp [hread, bind, Except.bind] at h
  | ok value =>
    simp only [hread, bind, Except.bind] at h
    -- too small, too large, or neither
    split at h
    · cases h
    · split at h
      · cases h
      · cases h
        omega

namespace Property

/-- The list of properties has all of them. -/
private theorem mem_all (p : Property) : p ∈ all := by
  cases p with
  | filter which => cases which <;> decide
  | _ => decide

/-- The list of properties has each of them once. -/
private theorem nodup_all : all.Nodup := by decide

/-- A key belongs to one property. -/
theorem key_injective {p q : Property} (h : p.key = q.key) : p = q := by
  have hkeys : ∀ p ∈ all, ∀ q ∈ all, p.key = q.key → p = q := by decide
  exact hkeys p (mem_all p) q (mem_all q) h

/-- A key is known if some property has it. -/
private theorem isSome_ofKey?_iff {key : String} : (ofKey? key).isSome ↔ ∃ p : Property, p.key = key := by
  simp [ofKey?, mem_all]

/-- The setting is one that the property may have in a valid rule. -/
def Admits : Property → Setting → Prop
  | .priority, s => ∃ n, s = .int n ∧ Rule.minPriority ≤ n ∧ n ≤ Rule.maxPriority
  | .filter _, s => s = .null ∨ ∃ list, s = .text list ∧ ¬ Wildcard.IsMalformed list
  | .enabled, _ | .description, _ => True

/-- Coercing a text leaves only the form of a filter to be checked. -/
theorem admits_of_coerce_text [Coercion] {p : Property} {text : String} {s : Setting}
    (h : p.coerce (.text text) = .ok s) :
    p.Admits s ↔ ∀ which, p = .filter which → ¬ Wildcard.IsMalformed text := by
  cases p with
  | priority =>
    -- the bounds that validation asks for are those of the coercion
    refine iff_of_true ?_ nofun
    change Except.map _ (Except.map some (Setting.toIntWithin _ _ (.text text))) = _ at h
    cases hread : Setting.toIntWithin Rule.minPriority (some Rule.maxPriority) (.text text) with
    | error fault => simp [hread, Except.map] at h
    | ok n =>
      obtain rfl : Setting.int n = s := by simpa [hread, Except.map] using h
      exact ⟨n, rfl, Setting.le_of_toIntWithin hread⟩
  | enabled | description => exact iff_of_true trivial nofun
  | filter which =>
    obtain rfl : Setting.text text = s := by
      simpa [coerce, Setting.optional, Coercion.toText_text, Except.map] using h
    simp [Admits]

end Property

namespace Rule

/-- The priority is checked for what it may be. -/
private theorem checkPriority_eq_ok_iff {rule : Rule} :
    rule.checkPriority = .ok () ↔ Property.Admits .priority (rule.properties.get .priority) := by
  show _ ↔ ∃ n, rule.priority = .int n ∧ _
  rw [checkPriority]
  cases rule.priority with
  | int n => simp
  | _ => simp

/-- A filter is checked for what it may be. -/
private theorem checkFilter_eq_ok_iff {rule : Rule} {which : Filter} :
    rule.checkFilter which = .ok () ↔ Property.Admits (.filter which) (rule.properties.get (.filter which)) := by
  show _ ↔ rule.properties.getFilter which = .null ∨
    ∃ list, rule.properties.getFilter which = .text list ∧ ¬ Wildcard.IsMalformed list
  rw [checkFilter]
  cases rule.properties.getFilter which with
  -- a text is read as a list of wildcards, and nothing else is one
  | text list =>
    simp only [reduceCtorEq, false_or, Setting.text.injEq, exists_eq_left', WildcardList.ofSetting,
      ← WildcardList.exists_ofString_eq_error_iff]
    cases WildcardList.ofString list <;> simp [Except.map]
  | _ => simp [WildcardList.ofSetting, Except.map]

/-- A rule is valid if each of its properties has a value that it may have. -/
theorem validate_eq_ok_iff {rule : Rule} :
    rule.validate = .ok () ↔ ∀ p : Property, p.Admits (rule.properties.get p) := by
  -- the priority first, and then the filters
  have hsplit : rule.validate = .ok () ↔
      rule.checkPriority = .ok () ∧ Filter.all.forM rule.checkFilter = .ok () := by
    rw [validate, bind_eq_ok_iff]
    exact ⟨fun ⟨_, hpriority, hfilters⟩ => ⟨hpriority, hfilters⟩, fun h => ⟨(), h⟩⟩
  rw [hsplit, forM_eq_ok_iff, checkPriority_eq_ok_iff]
  simp only [checkFilter_eq_ok_iff]
  constructor
  · rintro ⟨hpriority, hfilters⟩ p
    cases p with
    | priority => exact hpriority
    | enabled | description => exact trivial
    | filter which => exact hfilters which (by cases which <;> decide)
  · intro h
    exact ⟨h .priority, fun which _ => h (.filter which)⟩

end Rule

/-! ## The values of one rule -/

namespace Properties

/-- Properties are the same if each of them has the same value. -/
theorem ext_get {p q : Properties} (h : ∀ property, p.get property = q.get property) : p = q := by
  have hpriority := h .priority
  have henabled := h .enabled
  have hdescription := h .description
  -- the four filters are properties of one kind
  have hfilter := fun which => h (.filter which)
  have honlyFiles := hfilter .onlyFiles
  have hskipFiles := hfilter .skipFiles
  have honlyClasses := hfilter .onlyClasses
  have hskipClasses := hfilter .skipClasses
  cases p
  cases q
  simp only [get, getFilter] at *
  simp [*]

/-- Values given in a list without repeated properties are all kept, and the other properties stay as they are. -/
private theorem get_setAll_filterMap {f : Property → Option Setting} {properties : List Property}
    (h : properties.Nodup) (p : Properties) (property : Property) :
    (p.setAll (properties.filterMap fun q => (f q).map (q, ·))).get property =
      if property ∈ properties then (f property).getD (p.get property) else p.get property := by
  induction properties generalizing p with
  | nil => rfl
  | cons q properties ih =>
    -- a property that is set here is not set again further on
    obtain ⟨hq, hrest⟩ := List.nodup_cons.1 h
    cases hf : f q with
    | none =>
      rw [List.filterMap_cons_none (by simp [hf]), ih hrest]
      by_cases heq : property = q
      · simp [heq, hq, hf]
      · simp [heq]
    | some value =>
      rw [List.filterMap_cons_some (by simp [hf]; rfl), setAll, List.foldl_cons, ← setAll, ih hrest]
      by_cases heq : property = q
      · simp [heq, hq, hf]
      · simp [heq, get_set_ne p value (Ne.symm heq)]

end Properties

namespace Property

/-- The setting that a property is given, once it is coerced. -/
def coerced? [Coercion] (values : Keyed Setting) (p : Property) : Option Setting :=
  (values.lookup p.key).bind fun value => (p.coerce value).toOption

/-- Nothing is wrong with values whose keys are all known and which can all be coerced. -/
theorem invalidFields_eq_nil_iff [Coercion] {values : Keyed Setting} :
    invalidFields values = [] ↔
      (∀ key ∈ values.map Prod.fst, ∃ p : Property, p.key = key) ∧
        ∀ (p : Property) (value : Setting), values.lookup p.key = some value → ∃ s, p.coerce value = .ok s := by
  -- a field has no fault if its value can be coerced
  have hfaults : ∀ (field : String) (result : Except FieldFault Setting),
      Violation.fieldFaults field result = [] ↔ ∃ s, result = .ok s := by
    intro field result
    cases result <;> simp [Violation.fieldFaults]
  rw [invalidFields, List.append_eq_nil_iff, List.map_eq_nil_iff, List.filter_eq_nil_iff,
    List.flatMap_eq_nil_iff, and_comm]
  refine and_congr ?_ ?_
  · simp only [← isSome_ofKey?_iff, List.forall_mem_map, Option.isNone_iff_eq_none, Option.isSome_iff_ne_none]
  · simp only [hfaults, given, List.mem_filterMap, Option.map_eq_some_iff]
    constructor
    · intro h p value hvalue
      exact h (p, value) ⟨p, mem_all p, value, hvalue, rfl⟩
    · rintro h _ ⟨p, -, value, hvalue, rfl⟩
      exact h p value hvalue

/-- If nothing is wrong, all values that are given are coerced. -/
theorem coerceAll_eq_ok [Coercion] {values : Keyed Setting} (h : invalidFields values = []) :
    coerceAll values = .ok (all.filterMap fun p => (coerced? values p).map (p, ·)) := by
  rw [coerceAll, h]
  simp only [given, List.filterMap_filterMap, Option.bind_map, coerced?, Option.map_bind]
  rfl

/-- If something is wrong, everything that is wrong is the error. -/
theorem coerceAll_eq_error [Coercion] {values : Keyed Setting} (h : invalidFields values ≠ []) :
    coerceAll values = .error (invalidFields values) := by
  rw [coerceAll]
  split
  · next hnil => exact absurd hnil h
  · rfl

end Property

namespace Rule

/-- The rule with the values that it is given, once they are coerced. -/
def override [Coercion] (rule : Rule) (values : Keyed Setting) : Rule :=
  { rule with
    properties := rule.properties.setAll
      (Property.all.filterMap fun p => (Property.coerced? values p).map (p, ·)) }

/-- Without values a rule stays as it is. -/
@[simp]
theorem override_nil [Coercion] (rule : Rule) : rule.override [] = rule := by
  have hnone : (Property.all.filterMap fun p => (Property.coerced? [] p).map (p, ·)) = [] := rfl
  rw [override, hnone]
  rfl

/-- A property has the value that it is given, and else the one that it had. -/
theorem get_override [Coercion] (rule : Rule) (values : Keyed Setting) (p : Property) :
    (rule.override values).properties.get p = (Property.coerced? values p).getD (rule.properties.get p) := by
  rw [override, Properties.get_setAll_filterMap Property.nodup_all, if_pos (Property.mem_all p)]

/-- A valid rule stays valid if the values that it is given are values that their properties may have. -/
theorem validate_override_eq_ok_iff [Coercion] {rule : Rule} (h : rule.validate = .ok ()) {values : Keyed Setting} :
    (rule.override values).validate = .ok () ↔
      ∀ (p : Property) (s : Setting), Property.coerced? values p = some s → p.Admits s := by
  simp only [validate_eq_ok_iff, get_override] at h ⊢
  constructor
  · intro hvalid p s hs
    simpa [hs] using hvalid p
  · intro hgiven p
    cases hs : Property.coerced? values p with
    | none => exact h p
    | some s => exact hgiven p s hs

end Rule

/-! ## One entry -/

namespace Config

/-- Where no two rules share a name, the last rule with a name is the only one. -/
private theorem replaceLast_eq_map {rules : List Rule} (h : (rules.map (·.name)).Nodup) (name : String) (new : Rule) :
    replaceLast (·.name == name) new rules = rules.map fun rule => if rule.name = name then new else rule := by
  induction rules with
  | nil => rfl
  | cons rule rules ih =>
    obtain ⟨hname, hrest⟩ := List.nodup_cons.1 h
    rw [replaceLast, List.map_cons]
    by_cases heq : rule.name = name
    · -- no rule after this one has its name
      have hnone : ∀ other ∈ rules, other.name ≠ name := by
        intro other hother hsame
        exact hname (List.mem_map.2 ⟨other, hother, hsame.trans heq.symm⟩)
      have hany : rules.any (·.name == name) = false := by simpa using hnone
      have hkeep : rules.map (fun rule => if rule.name = name then new else rule) = rules := by
        rw [List.map_congr_left fun other hother => if_neg (hnone other hother), List.map_id']
      simp [heq, hany, hkeep]
    · simp [heq, ih hrest]

/-- Where no two rules share a name, the search from the end finds the rule with the name. -/
private theorem find?_reverse_eq_some_iff {rules : List Rule} (h : (rules.map (·.name)).Nodup) {name : String}
    {rule : Rule} : rules.reverse.find? (·.name == name) = some rule ↔ rule ∈ rules ∧ rule.name = name := by
  have hfound : ∀ {other : Rule}, rules.reverse.find? (·.name == name) = some other →
      other ∈ rules ∧ other.name = name := by
    intro other hother
    exact ⟨List.mem_reverse.1 (List.mem_of_find?_eq_some hother), by simpa using List.find?_some hother⟩
  constructor
  · exact hfound
  · rintro ⟨hmem, hname⟩
    cases hother : rules.reverse.find? (·.name == name) with
    | none =>
      have hno := List.find?_eq_none.1 hother rule (List.mem_reverse.2 hmem)
      exact absurd (beq_iff_eq.2 hname) hno
    -- another rule with the same name would be the same rule
    | some other =>
      obtain ⟨hmem', hname'⟩ := hfound hother
      rw [List.inj_on_of_nodup_map h hmem' hmem (hname'.trans hname.symm)]

/-- The rule of an entry is configured, and its values can be coerced and make a valid rule. -/
def Accepts [Coercion] (config : Config) (name : String) (values : Keyed Setting) : Prop :=
  ∃ rule ∈ config.rules, rule.name = name ∧ Property.invalidFields values = [] ∧
    (rule.override values).validate = .ok ()

/-- Each rule with the values that the overrides have for it. -/
def overridden [Coercion] (config : Config) (overrides : Overrides Setting) : Config :=
  { config with rules := config.rules.map fun rule => rule.override ((overrides.lookup rule.name).getD []) }

/-- Rules keep their names. -/
theorem map_name_overridden [Coercion] (config : Config) (overrides : Overrides Setting) :
    (config.overridden overrides).rules.map (·.name) = config.rules.map (·.name) := by
  simp [overridden, Rule.override]

/-- An entry that is accepted changes its own rule. -/
theorem applyOverride_of_accepts [Coercion] {config : Config} (h : (config.rules.map (·.name)).Nodup) {name : String}
    {values : Keyed Setting} (haccepts : config.Accepts name values) :
    config.applyOverride name values = (config.overridden [(name, values)], .ok ()) := by
  obtain ⟨rule, hmem, hname, hfields, hvalid⟩ := haccepts
  -- replacing the rule is overriding it and leaving the others as they are
  have hrules : replaceLast (·.name == name) (rule.override values) config.rules =
      (config.overridden [(name, values)]).rules := by
    rw [replaceLast_eq_map h, overridden]
    refine List.map_congr_left fun other hother => ?_
    by_cases hsame : other.name = name
    · rw [List.inj_on_of_nodup_map h hother hmem (hsame.trans hname.symm)]
      simp [hname]
    · simp [Keyed.lookup_cons_ne hsame, hsame]
  rw [applyOverride, (find?_reverse_eq_some_iff h).2 ⟨hmem, hname⟩]
  simp only [Property.coerceAll_eq_ok hfields]
  change ({ config with rules := replaceLast _ (rule.override values) config.rules }, _) = _
  rw [hrules]
  exact congrArg (Prod.mk _) hvalid

/-- An entry that is not accepted fails. -/
theorem accepts_of_applyOverride [Coercion] {config : Config} (h : (config.rules.map (·.name)).Nodup) {name : String}
    {values : Keyed Setting} (hok : (config.applyOverride name values).2 = .ok ()) :
    config.Accepts name values := by
  rw [applyOverride] at hok
  split at hok
  · cases hok
  next rule hrule =>
  obtain ⟨hmem, hname⟩ := (find?_reverse_eq_some_iff h).1 hrule
  -- values that were refused would have failed before the rule was touched
  by_cases hfields : Property.invalidFields values = []
  · rw [Property.coerceAll_eq_ok hfields] at hok
    exact ⟨rule, hmem, hname, hfields, hok⟩
  · rw [Property.coerceAll_eq_error hfields] at hok
    cases hok

/-! ## All entries -/

/-- An entry says nothing about the rules of other names. -/
private theorem accepts_overridden_iff [Coercion] {config : Config} {name other : String}
    {values given : Keyed Setting} (h : other ≠ name) :
    (config.overridden [(name, values)]).Accepts other given ↔ config.Accepts other given := by
  -- a rule with another name has no values in this entry
  have hkeep : ∀ rule : Rule, rule.name = other →
      rule.override ((List.lookup rule.name [(name, values)]).getD []) = rule := by
    intro rule hrule
    rw [hrule, Keyed.lookup_cons_ne h]
    exact rule.override_nil
  constructor
  · rintro ⟨_, hmem, hname, hrest⟩
    obtain ⟨rule, hrule, rfl⟩ := List.mem_map.1 hmem
    rw [hkeep rule hname] at hrest
    exact ⟨rule, hrule, hname, hrest⟩
  · rintro ⟨rule, hrule, hname, hrest⟩
    exact ⟨rule, List.mem_map.2 ⟨rule, hrule, hkeep rule hname⟩, hname, hrest⟩

/-- One entry, and then the others, which are for other rules. -/
private theorem overridden_cons [Coercion] {config : Config} {name : String} {values : Keyed Setting}
    {rest : Overrides Setting} (h : name ∉ rest.map Prod.fst) :
    (config.overridden [(name, values)]).overridden rest = config.overridden ((name, values) :: rest) := by
  -- the others have no entry for the rule of the first
  have hnone : rest.lookup name = none := by
    rw [Option.eq_none_iff_forall_ne_some]
    exact fun value hvalue => h (Keyed.exists_lookup_eq_some_iff.1 ⟨value, hvalue⟩)
  simp only [overridden, List.map_map]
  congr 1
  refine List.map_congr_left fun rule _ => ?_
  show (rule.override _).override ((rest.lookup rule.name).getD []) = _
  by_cases hsame : rule.name = name
  · simp [hsame, hnone]
  · simp [Keyed.lookup_cons_ne hsame]

/-- Overrides succeed exactly if each entry is accepted by the rules as they were, and then change each rule by
    its own entry. -/
theorem configure_eq_ok_iff [Coercion] {config changed : Config} (h : (config.rules.map (·.name)).Nodup)
    {overrides : Overrides Setting} (hkeys : (overrides.map Prod.fst).Nodup) :
    config.configure overrides = (changed, .ok ()) ↔
      (∀ entry ∈ overrides, config.Accepts entry.1 entry.2) ∧ changed = config.overridden overrides := by
  -- the rules change on the way, but only those whose entries are done
  induction overrides generalizing config with
  | nil => simp [configure, overridden, eq_comm]
  | cons entry rest ih =>
    obtain ⟨name, values⟩ := entry
    obtain ⟨hname, hrest⟩ := List.nodup_cons.1 hkeys
    rw [List.forall_mem_cons]
    by_cases haccepts : config.Accepts name values
    · -- the other entries are accepted after the first if they were before
      have hothers : (∀ entry ∈ rest, (config.overridden [(name, values)]).Accepts entry.1 entry.2) ↔
          ∀ entry ∈ rest, config.Accepts entry.1 entry.2 := by
        refine forall₂_congr fun entry hentry => accepts_overridden_iff ?_
        rintro rfl
        exact hname (List.mem_map.2 ⟨entry, hentry, rfl⟩)
      have hnodup : ((config.overridden [(name, values)]).rules.map (·.name)).Nodup := by
        rwa [map_name_overridden]
      rw [configure, applyOverride_of_accepts h haccepts]
      simp only [ih hnodup hrest, hothers, overridden_cons hname, haccepts, true_and]
    · -- the entry fails, and no later one is looked at
      rw [configure]
      split
      · next hok => exact absurd (accepts_of_applyOverride h (by rw [hok])) haccepts
      · simp [haccepts]

end Config

end JavaLint
