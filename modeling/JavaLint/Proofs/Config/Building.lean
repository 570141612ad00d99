import JavaLint.Proofs.Config.Overrides
import JavaLint.Setting.Lenient

/-!
# The configuration that a command line asks for

A configuration is built from a catalog in five stages, each of which can refuse. Taken together they refuse for
the reasons of `IsRefused` and for no other, and what is built otherwise is determined by the names that are kept
and by the last value that each property is assigned.

- `validate_eq_ok_iff`: the checks of a whole configuration
- `select_eq_ok_iff`, `forall_accepts_iff`: what selection and overrides refuse
- `build_eq_ok_iff`: the stages one after another
- `build_eq_ok_iff_lastAssigned`: the stages as conditions on the last values
- `IsRefused`, `Realises`, `build_of_assignments`: all of them together
-/

namespace JavaLint

namespace Config

open Overrides

/-! ## The stages -/

/-- There are no duplicate names if all names are different. -/
private theorem duplicateNames_eq_nil_iff {config : Config} :
    config.duplicateNames = [] ↔ (config.rules.map (·.name)).Nodup := by
  -- sorting without repeats does not change whether there are any
  have hsort : ∀ l : List String, (l.eraseDups.mergeSort fun a b => a ≤ b) = [] ↔ l = [] := by
    intro l
    rw [← List.length_eq_zero_iff, List.length_mergeSort, List.length_eq_zero_iff]
    cases l <;> simp [List.eraseDups_cons]
  rw [duplicateNames, hsort, List.filter_eq_nil_iff, List.nodup_iff_count_le_one]
  simp only [decide_eq_true_eq, not_lt]
  constructor
  · intro h name
    by_cases hmem : name ∈ config.rules.map (·.name)
    · exact h name hmem
    · rw [List.count_eq_zero_of_not_mem hmem]
      exact Nat.zero_le 1
  · exact fun h name _ => h name

/-- The checks of a whole configuration. -/
theorem validate_eq_ok_iff {config : Config} :
    config.validate = .ok () ↔
      (Rule.minPriority ≤ config.maxPriority ∧ config.maxPriority ≤ Rule.maxPriority) ∧ 1 ≤ config.workers ∧
        (config.rules.map (·.name)).Nodup ∧ ∀ rule ∈ config.rules, rule.validate = .ok () := by
  rw [← duplicateNames_eq_nil_iff, ← forM_eq_ok_iff, validate]
  -- the checks in their order, each of which ends the validation
  by_cases hpriority : config.maxPriority < Rule.minPriority ∨ Rule.maxPriority < config.maxPriority
  · simp only [hpriority, if_true]
    exact iff_of_false nofun fun h => by omega
  · by_cases hworkers : config.workers < 1
    · simp only [hpriority, hworkers, if_true, if_false]
      exact iff_of_false nofun fun h => by omega
    · have hrange : Rule.minPriority ≤ config.maxPriority ∧ config.maxPriority ≤ Rule.maxPriority := by omega
      have hcount : 1 ≤ config.workers := by omega
      simp only [hpriority, hworkers, if_false, hrange, hcount, true_and]
      cases hnames : config.duplicateNames with
      | nil => simp
      | cons name names => simp

/-- The rules of a catalog that are kept: all of them if no name is given, otherwise the named ones. -/
def keptRules (catalog : Catalog) (names : List String) : List Rule :=
  catalog.rules.filter fun rule => names = [] ∨ rule.name ∈ names

/-- Selection refuses names that no rule has, and keeps the rules with the others. -/
theorem select_eq_ok_iff {config selected : Config} {names : List String} :
    config.select names = .ok selected ↔
      (∀ name ∈ names, name ∈ config.rules.map (·.name)) ∧
        selected = { config with rules := config.rules.filter fun rule => rule.name ∈ names } := by
  -- names are unknown if they are not among those of the rules
  have hunknown : names.filter (!(config.rules.map (·.name)).contains ·) = [] ↔
      ∀ name ∈ names, name ∈ config.rules.map (·.name) := by
    simp only [List.filter_eq_nil_iff, Bool.not_eq_true', Bool.not_eq_false, List.contains_iff_mem]
  rw [← hunknown, select]
  split
  · next hnil =>
    simp only [List.contains_eq_mem, Except.ok.injEq] at hnil ⊢
    rw [and_iff_right hnil, eq_comm]
  · next hsome =>
    exact iff_of_false nofun fun h => hsome h.1

/-- The configuration that overrides are applied to. -/
def ofKept (catalog : Catalog) (maxPriority workers : Int) (names : List String) : Config :=
  { rules := keptRules catalog names, maxPriority, workers }

/-- The last three stages: reading the assignments, applying them, and checking the whole. -/
def assigned [Coercion] (config : Config) (texts : List String) : Except ConfigError Config := do
  let overrides ← ofAssignments texts
  let (config, outcome) := config.configure overrides.toSettings
  outcome
  config.validate
  return config

/-- Reading, applying and checking one after another. -/
private theorem assigned_eq_ok_iff [Coercion] {config changed : Config} {texts : List String} :
    config.assigned texts = .ok changed ↔ ∃ overrides, ofAssignments texts = .ok overrides ∧
      config.configure overrides.toSettings = (changed, .ok ()) ∧ changed.validate = .ok () := by
  rw [assigned, bind_eq_ok_iff]
  refine exists_congr fun overrides => and_congr_right fun _ => ?_
  -- the configuration is returned also where an override failed, so both parts are needed
  obtain ⟨other, outcome⟩ := config.configure overrides.toSettings
  simp only [bind_eq_ok_iff, pure, Except.pure, Except.ok.injEq, Prod.mk.injEq]
  constructor
  · rintro ⟨_, houtcome, _, hvalid, rfl⟩
    exact ⟨⟨rfl, houtcome⟩, hvalid⟩
  · rintro ⟨⟨rfl, houtcome⟩, hvalid⟩
    exact ⟨(), houtcome, (), hvalid, rfl⟩

/-- The stages of building one after another. -/
theorem build_eq_ok_iff [Coercion] {catalog : Catalog} {maxPriority workers : Int} {names texts : List String}
    {config : Config} :
    build catalog maxPriority workers names texts = .ok config ↔
      (∀ name ∈ names, name ∈ catalog.names) ∧
        (ofKept catalog maxPriority workers names).assigned texts = .ok config := by
  cases names with
  | nil =>
    -- without a name all rules are kept, and nothing is refused
    have hkept : ofKept catalog maxPriority workers [] = { ofCatalog catalog with maxPriority, workers } := by
      simp [ofKept, keptRules, ofCatalog]
    rw [hkept]
    exact ⟨fun h => ⟨by simp, h⟩, fun h => h.2⟩
  | cons name names =>
    show select { ofCatalog catalog with maxPriority, workers } (name :: names) >>= (·.assigned texts) = _ ↔ _
    have hkept : ofKept catalog maxPriority workers (name :: names) =
        { ofCatalog catalog with
          maxPriority, workers, rules := catalog.rules.filter fun rule => rule.name ∈ name :: names } := by
      simp [ofKept, keptRules, ofCatalog]
    rw [bind_eq_ok_iff, hkept]
    simp only [select_eq_ok_iff]
    constructor
    · rintro ⟨_, ⟨hnames, rfl⟩, hassigned⟩
      exact ⟨hnames, hassigned⟩
    · rintro ⟨hnames, hassigned⟩
      exact ⟨_, ⟨hnames, rfl⟩, hassigned⟩

/-! ## The assigned values -/

/-- The values of a rule in a table of texts, as settings. -/
private theorem lookup_toSettings (overrides : Overrides String) (name key : String) :
    List.lookup key ((overrides.toSettings.lookup name).getD []) = (overrides.value? name key).map .text := by
  rw [toSettings, Keyed.lookup_map, value?]
  cases overrides.lookup name with
  | none => rfl
  | some values => rw [Option.map_some, Option.getD_some, Keyed.lookup_map, Option.bind_some]

/-- The table has the same rules as settings. -/
private theorem map_fst_toSettings (overrides : Overrides String) :
    overrides.toSettings.map Prod.fst = overrides.map Prod.fst := by
  simp [toSettings]

/-- The value of a property in a table of texts, once it is coerced. -/
private theorem coerced?_toSettings [Coercion] (overrides : Overrides String) (name : String) (p : Property) :
    Property.coerced? ((overrides.toSettings.lookup name).getD []) p =
      (overrides.value? name p.key).bind fun value => (p.coerce (.text value)).toOption := by
  rw [Property.coerced?, lookup_toSettings, Option.bind_map]
  rfl

/-- The rule is configured, the key is known, and the value is coerced to one that the property may have. -/
def IsAssignable [Coercion] (config : Config) (name key value : String) : Prop :=
  name ∈ config.rules.map (·.name) ∧
    ∃ p : Property, p.key = key ∧ ∃ s, p.coerce (.text value) = .ok s ∧ p.Admits s

/-- A key belongs to one property, so that is the one whose value can be assigned. -/
private theorem IsAssignable.exists_coerce [Coercion] {config : Config} {name value : String} {p : Property}
    (h : config.IsAssignable name p.key value) : ∃ s, p.coerce (.text value) = .ok s ∧ p.Admits s := by
  obtain ⟨-, q, hq, hs⟩ := h
  rwa [Property.key_injective hq] at hs

/-- The entry of a rule is accepted if each of its values can be assigned. -/
private theorem accepts_toSettings_iff [Coercion] {config : Config}
    (hvalid : ∀ rule ∈ config.rules, rule.validate = .ok ()) (overrides : Overrides String) (name : String) :
    config.Accepts name ((overrides.toSettings.lookup name).getD []) ↔
      name ∈ config.rules.map (·.name) ∧
        ∀ key value, overrides.value? name key = some value → config.IsAssignable name key value := by
  -- the keys of the entry are those that have a value
  have hkeys : (∀ key ∈ ((overrides.toSettings.lookup name).getD []).map Prod.fst, ∃ p : Property, p.key = key) ↔
      ∀ key value, overrides.value? name key = some value → ∃ p : Property, p.key = key := by
    simp only [← Keyed.exists_lookup_eq_some_iff, lookup_toSettings, Option.map_eq_some_iff]
    exact ⟨fun h key value hvalue => h key ⟨_, value, hvalue, rfl⟩,
      fun h key ⟨_, value, hvalue, _⟩ => h key value hvalue⟩
  constructor
  · -- each value was coerced, and the rule is valid with it
    rintro ⟨rule, hmem, rfl, hfields, hrule⟩
    have hname : rule.name ∈ config.rules.map (·.name) := List.mem_map_of_mem hmem
    rw [Property.invalidFields_eq_nil_iff, hkeys] at hfields
    rw [Rule.validate_override_eq_ok_iff (hvalid rule hmem)] at hrule
    refine ⟨hname, fun key value hvalue => ⟨hname, ?_⟩⟩
    obtain ⟨p, rfl⟩ := hfields.1 key value hvalue
    obtain ⟨s, hs⟩ := hfields.2 p (.text value) (by rw [lookup_toSettings, hvalue]; rfl)
    refine ⟨p, rfl, s, hs, hrule p s ?_⟩
    rw [coerced?_toSettings, hvalue, Option.bind_some, hs]
    rfl
  · rintro ⟨hname, hgiven⟩
    obtain ⟨rule, hmem, rfl⟩ := List.mem_map.1 hname
    refine ⟨rule, hmem, rfl, ?_, ?_⟩
    · rw [Property.invalidFields_eq_nil_iff, hkeys]
      refine ⟨fun key value hvalue => ?_, fun p setting hsetting => ?_⟩
      · obtain ⟨-, p, hp, -⟩ := hgiven key value hvalue
        exact ⟨p, hp⟩
      · rw [lookup_toSettings] at hsetting
        obtain ⟨value, hvalue, rfl⟩ := Option.map_eq_some_iff.1 hsetting
        obtain ⟨s, hs, -⟩ := (hgiven p.key value hvalue).exists_coerce
        exact ⟨s, hs⟩
    · rw [Rule.validate_override_eq_ok_iff (hvalid rule hmem)]
      intro p s hs
      rw [coerced?_toSettings] at hs
      obtain ⟨value, hvalue, hcoerce⟩ := Option.bind_eq_some_iff.1 hs
      obtain ⟨t, ht, hadmits⟩ := (hgiven p.key value hvalue).exists_coerce
      rw [ht] at hcoerce
      obtain rfl : t = s := Option.some.inj hcoerce
      exact hadmits

/-- The overrides that texts are read into are accepted if the last value of each property can be assigned. -/
theorem forall_accepts_iff [Coercion] {config : Config} (hvalid : ∀ rule ∈ config.rules, rule.validate = .ok ())
    {overrides : Overrides String} {texts : List String} (h : overrides.Holds texts) :
    (∀ entry ∈ overrides.toSettings, config.Accepts entry.1 entry.2) ↔
      ∀ name key value, LastAssigned texts name key value → config.IsAssignable name key value := by
  have hnodup : (overrides.toSettings.map Prod.fst).Nodup := by
    rw [map_fst_toSettings]
    exact h.nodup
  -- each entry is the table of its rule
  have hentries : (∀ entry ∈ overrides.toSettings, config.Accepts entry.1 entry.2) ↔
      ∀ name ∈ overrides.map Prod.fst, config.Accepts name ((overrides.toSettings.lookup name).getD []) := by
    rw [← map_fst_toSettings]
    constructor
    · intro hall name hname
      obtain ⟨values, hvalues⟩ := Keyed.exists_lookup_eq_some_iff.2 hname
      rw [hvalues]
      exact hall (name, values) ((Keyed.mem_iff_lookup hnodup).2 hvalues)
    · rintro hall ⟨name, values⟩ hentry
      have haccepts := hall name (List.mem_map.2 ⟨_, hentry, rfl⟩)
      rwa [(Keyed.mem_iff_lookup hnodup).1 hentry] at haccepts
  simp only [hentries, accepts_toSettings_iff hvalid, h.mem_rules, h.value?_eq]
  constructor
  · -- a rule that has a last value has been assigned to, and so has an entry
    intro hall name key value hlast
    obtain ⟨text, htext, hwritten⟩ := hlast.exists_mem
    exact (hall name ⟨text, htext, key, value, hwritten⟩).2 key value hlast
  · -- and the other way round: that text, or a later one, gives the last value
    rintro hall name ⟨text, htext, key, value, hwritten⟩
    obtain ⟨last, hlast⟩ := exists_lastAssigned fun huntouched => huntouched text htext value hwritten
    exact ⟨(hall name key last hlast).1, hall name⟩

/-! ## The outcome -/

/-- The reasons for which no configuration is built. -/
inductive IsRefused [Coercion] (catalog : Catalog) (maxPriority workers : Int) (names texts : List String) :
    Prop where
  | priorityOutOfRange (h : maxPriority < 1 ∨ 4 < maxPriority)
  | tooFewWorkers (h : workers < 1)
  | unknownName {name : String} (hmem : name ∈ names) (h : name ∉ catalog.names)
  | malformed {text : String} (hmem : text ∈ texts) (h : ∀ a : Assignment, ¬ a.IsWritten text)
  | ruleNotKept {text : String} {a : Assignment} (hmem : text ∈ texts) (hwritten : a.IsWritten text)
      (h : ∀ rule ∈ keptRules catalog names, rule.name ≠ a.rule)
  | unknownKey {text : String} {a : Assignment} (hmem : text ∈ texts) (hwritten : a.IsWritten text)
      (h : ∀ p : Property, p.key ≠ a.key)
  | rejected {name value : String} {p : Property} {fault : FieldFault}
      (hlast : LastAssigned texts name p.key value) (h : p.coerce (.text value) = .error fault)
  | malformedFilter {name value : String} {which : Filter}
      (hlast : LastAssigned texts name which.key value) (h : Wildcard.IsMalformed value)

/-- The rule is the registered one, but for the properties that are assigned: each has the last value that it is
    assigned, once it is coerced. -/
structure IsConfigured [Coercion] (texts : List String) (rule changed : Rule) : Prop where
  typeName : changed.typeName = rule.typeName
  name : changed.name = rule.name
  detector : changed.detector = rule.detector
  assigned : ∀ (p : Property) (value : String), LastAssigned texts rule.name p.key value →
    p.coerce (.text value) = .ok (changed.properties.get p)
  default : ∀ p : Property, Untouched texts rule.name p.key → changed.properties.get p = rule.properties.get p

/-- The configuration has the kept rules in the order of their registration, each as it is configured. -/
structure Realises [Coercion] (catalog : Catalog) (maxPriority workers : Int) (names texts : List String)
    (config : Config) : Prop where
  maxPriority : config.maxPriority = maxPriority
  workers : config.workers = workers
  descriptions : config.descriptions = .shipped
  rules : List.Forall₂ (IsConfigured texts) (keptRules catalog names) config.rules
  nodup : (config.rules.map (·.name)).Nodup
  valid : ∀ rule ∈ config.rules, rule.validate = .ok ()

/-- The last values leave no choice. -/
private theorem IsConfigured.unique [Coercion] {texts : List String} {rule first second : Rule}
    (hfirst : IsConfigured texts rule first) (hsecond : IsConfigured texts rule second) : first = second := by
  have hproperties : first.properties = second.properties := by
    refine Properties.ext_get fun p => ?_
    -- a property has its default, or the last value
    by_cases huntouched : Untouched texts rule.name p.key
    · rw [hfirst.default p huntouched, hsecond.default p huntouched]
    · obtain ⟨value, hlast⟩ := exists_lastAssigned huntouched
      have hcoerce := hfirst.assigned p value hlast
      rw [hsecond.assigned p value hlast] at hcoerce
      exact (Except.ok.inj hcoerce).symm
  have htypeName := hfirst.typeName.trans hsecond.typeName.symm
  have hname := hfirst.name.trans hsecond.name.symm
  have hdetector := hfirst.detector.trans hsecond.detector.symm
  cases first
  cases second
  rw [Rule.mk.injEq]
  exact ⟨htypeName, hname, hdetector, hproperties⟩

/-- There is one configuration that a command line asks for. -/
private theorem Realises.unique [Coercion] {catalog : Catalog} {maxPriority workers : Int} {names texts : List String}
    {first second : Config} (hfirst : Realises catalog maxPriority workers names texts first)
    (hsecond : Realises catalog maxPriority workers names texts second) : first = second := by
  -- rule by rule, what the assignments ask for leaves no choice
  have hunique : Relator.RightUnique (IsConfigured texts) := fun _ _ _ => IsConfigured.unique
  have hrules : first.rules = second.rules :=
    List.right_unique_forall₂' hunique hfirst.rules hsecond.rules
  have hpriority := hfirst.maxPriority.trans hsecond.maxPriority.symm
  have hworkers := hfirst.workers.trans hsecond.workers.symm
  have hdescriptions := hfirst.descriptions.trans hsecond.descriptions.symm
  cases first
  cases second
  rw [Config.mk.injEq]
  exact ⟨hrules, hpriority, hworkers, hdescriptions⟩

section Catalog

variable {catalog : Catalog} {maxPriority workers : Int} {names texts : List String} {config : Config}

/-- A rule that is kept is in the catalog. -/
private theorem mem_catalog_of_mem_keptRules {rule : Rule} (h : rule ∈ keptRules catalog names) :
    rule ∈ catalog.rules :=
  (List.mem_filter.1 h).1

/-- The rules that are kept have different names. -/
private theorem nodup_keptRules (hnames : catalog.names.Nodup) : ((keptRules catalog names).map (·.name)).Nodup :=
  hnames.sublist (List.filter_sublist.map _)

variable (hnames : catalog.names.Nodup) (hvalid : ∀ rule ∈ catalog.rules, rule.validate = .ok ())

include hnames hvalid

/-- Once the values of the texts can be assigned, only the priority of the report and the number of workers are
    left to be checked. -/
private theorem validate_overridden_iff [Coercion] {overrides : Overrides String} (h : overrides.Holds texts)
    (hassign : ∀ name key value, LastAssigned texts name key value →
      (ofKept catalog maxPriority workers names).IsAssignable name key value) :
    ((ofKept catalog maxPriority workers names).overridden overrides.toSettings).validate = .ok () ↔
      (1 ≤ maxPriority ∧ maxPriority ≤ 4) ∧ 1 ≤ workers := by
  have hkept : ∀ rule ∈ (ofKept catalog maxPriority workers names).rules, rule.validate = .ok () :=
    fun rule hrule => hvalid rule (mem_catalog_of_mem_keptRules hrule)
  have hrules : ∀ rule ∈ ((ofKept catalog maxPriority workers names).overridden overrides.toSettings).rules,
      rule.validate = .ok () := by
    intro changed hchanged
    obtain ⟨rule, hrule, rfl⟩ := List.mem_map.1 hchanged
    -- the entry of the rule is accepted, also if it is empty
    have hgiven : ∀ key value, overrides.value? rule.name key = some value →
        (ofKept catalog maxPriority workers names).IsAssignable rule.name key value :=
      fun key value hvalue => hassign rule.name key value ((h.value?_eq rule.name key value).1 hvalue)
    obtain ⟨other, hother, hsame, -, hoverride⟩ :=
      (accepts_toSettings_iff hkept overrides rule.name).2 ⟨List.mem_map_of_mem hrule, hgiven⟩
    rwa [List.inj_on_of_nodup_map (nodup_keptRules hnames) hother hrule hsame] at hoverride
  rw [validate_eq_ok_iff, map_name_overridden]
  constructor
  · exact fun hall => ⟨hall.1, hall.2.1⟩
  · exact fun hall => ⟨hall.1, hall.2, nodup_keptRules hnames, hrules⟩

/-- The five stages as conditions on the names and on the last values that are assigned. -/
theorem build_eq_ok_iff_lastAssigned [Coercion] :
    build catalog maxPriority workers names texts = .ok config ↔
      ((1 ≤ maxPriority ∧ maxPriority ≤ 4) ∧ 1 ≤ workers) ∧ (∀ name ∈ names, name ∈ catalog.names) ∧
        (∀ name key value, LastAssigned texts name key value →
          (ofKept catalog maxPriority workers names).IsAssignable name key value) ∧
        ∃ overrides, ofAssignments texts = .ok overrides ∧
          config = (ofKept catalog maxPriority workers names).overridden overrides.toSettings := by
  have hkept : ∀ rule ∈ (ofKept catalog maxPriority workers names).rules, rule.validate = .ok () :=
    fun rule hrule => hvalid rule (mem_catalog_of_mem_keptRules hrule)
  -- applying the overrides succeeds if the last values can be assigned
  have hconfigure : ∀ {overrides : Overrides String}, ofAssignments texts = .ok overrides →
      ((ofKept catalog maxPriority workers names).configure overrides.toSettings = (config, .ok ()) ↔
        (∀ name key value, LastAssigned texts name key value →
          (ofKept catalog maxPriority workers names).IsAssignable name key value) ∧
        config = (ofKept catalog maxPriority workers names).overridden overrides.toSettings) := by
    intro overrides hread
    have h := holds_of_ofAssignments hread
    have hnodup : (overrides.toSettings.map Prod.fst).Nodup := by
      rw [map_fst_toSettings]
      exact h.nodup
    rw [configure_eq_ok_iff (nodup_keptRules hnames) hnodup, forall_accepts_iff hkept h]
  rw [build_eq_ok_iff, assigned_eq_ok_iff]
  constructor
  · rintro ⟨hknown, overrides, hread, hconfig, hchecked⟩
    obtain ⟨hassign, rfl⟩ := (hconfigure hread).1 hconfig
    have hranges := (validate_overridden_iff hnames hvalid (holds_of_ofAssignments hread) hassign).1 hchecked
    exact ⟨hranges, hknown, hassign, overrides, hread, rfl⟩
  · rintro ⟨hranges, hknown, hassign, overrides, hread, rfl⟩
    have hchecked := (validate_overridden_iff hnames hvalid (holds_of_ofAssignments hread) hassign).2 hranges
    exact ⟨hknown, overrides, hread, (hconfigure hread).2 ⟨hassign, rfl⟩, hchecked⟩

/-- What is built has the last values of the kept rules. -/
private theorem realises_of_build [Coercion] (h : build catalog maxPriority workers names texts = .ok config) :
    Realises catalog maxPriority workers names texts config := by
  obtain ⟨hranges, -, hassign, overrides, hread, rfl⟩ := (build_eq_ok_iff_lastAssigned hnames hvalid).1 h
  have hholds := holds_of_ofAssignments hread
  have hchecked := (validate_overridden_iff hnames hvalid hholds hassign).2 hranges
  obtain ⟨-, -, hnodup, hrules⟩ := validate_eq_ok_iff.1 hchecked
  refine ⟨rfl, rfl, rfl, ?_, hnodup, hrules⟩
  refine List.forall₂_map_right_iff.2 (List.forall₂_same.2 fun rule _ => ⟨rfl, rfl, rfl, ?_, ?_⟩)
  · -- the last value is the one in the table
    intro p value hlast
    obtain ⟨s, hs, -⟩ := (hassign rule.name p.key value hlast).exists_coerce
    rw [Rule.get_override, coerced?_toSettings, (hholds.value?_eq rule.name p.key value).2 hlast,
      Option.bind_some, hs]
    rfl
  · intro p huntouched
    -- a property that no text speaks of has no value in the table
    have hnone : overrides.value? rule.name p.key = none := by
      rw [Option.eq_none_iff_forall_ne_some]
      intro value hvalue
      obtain ⟨text, htext, hwritten⟩ := ((hholds.value?_eq rule.name p.key value).1 hvalue).exists_mem
      exact huntouched text htext value hwritten
    rw [Rule.get_override, coerced?_toSettings, hnone]
    rfl

/-- Nothing is built for one of the reasons, and something is built if there is none. -/
private theorem exists_build_eq_ok_iff [Coercion] :
    (∃ config, build catalog maxPriority workers names texts = .ok config) ↔
      ¬ IsRefused catalog maxPriority workers names texts := by
  simp only [build_eq_ok_iff_lastAssigned hnames hvalid]
  constructor
  · rintro ⟨_, hranges, hknown, hassign, overrides, hread, -⟩ hrefused
    have hwritten := exists_ofAssignments_eq_ok_iff.1 ⟨overrides, hread⟩
    -- each reason goes against one of the conditions
    cases hrefused with
    | priorityOutOfRange h => omega
    | tooFewWorkers h => omega
    | unknownName hmem h => exact h (hknown _ hmem)
    | malformed hmem h =>
      obtain ⟨a, ha⟩ := hwritten _ hmem
      exact h a ha
    | ruleNotKept hmem ha h =>
      obtain ⟨value, hlast⟩ := exists_lastAssigned fun huntouched => huntouched _ hmem _ ha
      obtain ⟨rule, hrule, hname⟩ := List.mem_map.1 (hassign _ _ value hlast).1
      exact h rule hrule hname
    | unknownKey hmem ha h =>
      obtain ⟨value, hlast⟩ := exists_lastAssigned fun huntouched => huntouched _ hmem _ ha
      obtain ⟨-, p, hp, -⟩ := hassign _ _ value hlast
      exact h p hp
    | rejected hlast h =>
      obtain ⟨s, hs, -⟩ := (hassign _ _ _ hlast).exists_coerce
      rw [hs] at h
      cases h
    | @malformedFilter name value which hlast h =>
      obtain ⟨s, hs, hadmits⟩ := IsAssignable.exists_coerce (p := .filter which) (hassign _ _ _ hlast)
      exact (Property.admits_of_coerce_text hs).1 hadmits which rfl h
  · intro hrefused
    -- without a reason every condition holds
    have hpriority : ¬ (maxPriority < 1 ∨ 4 < maxPriority) := fun h => hrefused (.priorityOutOfRange h)
    have hworkers : ¬ workers < 1 := fun h => hrefused (.tooFewWorkers h)
    have hknown : ∀ name ∈ names, name ∈ catalog.names :=
      fun name hmem => by_contra fun h => hrefused (.unknownName hmem h)
    obtain ⟨overrides, hread⟩ := exists_ofAssignments_eq_ok_iff.2 fun text hmem =>
      by_contra fun h => hrefused (.malformed hmem (not_exists.1 h))
    refine ⟨_, by omega, hknown, fun name key value hlast => ?_, overrides, hread, rfl⟩
    obtain ⟨text, hmem, hwritten⟩ := hlast.exists_mem
    have hname : name ∈ (keptRules catalog names).map (·.name) := by_contra fun h =>
      hrefused (.ruleNotKept hmem hwritten fun rule hrule hsame => h (List.mem_map.2 ⟨rule, hrule, hsame⟩))
    have hkey : ∃ p : Property, p.key = key := by_contra fun h =>
      hrefused (.unknownKey hmem hwritten (not_exists.1 h))
    obtain ⟨p, rfl⟩ := hkey
    refine ⟨hname, p, rfl, ?_⟩
    cases hs : p.coerce (.text value) with
    | error fault => exact absurd (.rejected hlast hs) hrefused
    | ok s =>
      refine ⟨s, rfl, (Property.admits_of_coerce_text hs).2 fun which hp hbad => ?_⟩
      subst hp
      exact hrefused (.malformedFilter hlast hbad)

end Catalog

/-! ## Reordering -/

section Reordering

variable {catalog : Catalog} {maxPriority workers : Int} {names texts named reordered : List String}

/-- The order of the names does not count. -/
private theorem keptRules_congr (hnames : ∀ name, name ∈ names ↔ name ∈ named) :
    keptRules catalog names = keptRules catalog named := by
  have hempty : names = [] ↔ named = [] := by
    simp only [List.eq_nil_iff_forall_not_mem, hnames]
  simp only [keptRules, hempty, hnames]

variable (hperm : texts.Perm reordered)
  (hlast : ∀ rule key value, LastAssigned texts rule key value ↔ LastAssigned reordered rule key value)

include hperm hlast

/-- A rule is configured by the last values, whatever the order of the texts. -/
private theorem IsConfigured.congr [Coercion] {rule changed : Rule} (h : IsConfigured texts rule changed) :
    IsConfigured reordered rule changed := by
  refine ⟨h.typeName, h.name, h.detector, fun p value hvalue => ?_, fun p huntouched => ?_⟩
  · exact h.assigned p value ((hlast rule.name p.key value).2 hvalue)
  · exact h.default p fun text htext => huntouched text (hperm.mem_iff.1 htext)

variable (hnames : ∀ name, name ∈ names ↔ name ∈ named)

include hnames

/-- What is refused is refused in any order. -/
private theorem IsRefused.congr [Coercion] (h : IsRefused catalog maxPriority workers names texts) :
    IsRefused catalog maxPriority workers named reordered := by
  -- each cause asks for a text, a name or a last value, and these are the same in both
  cases h with
  | priorityOutOfRange h => exact .priorityOutOfRange h
  | tooFewWorkers h => exact .tooFewWorkers h
  | unknownName hmem h => exact .unknownName ((hnames _).1 hmem) h
  | malformed hmem h => exact .malformed (hperm.mem_iff.1 hmem) h
  | ruleNotKept hmem hwritten h =>
    rw [keptRules_congr hnames] at h
    exact .ruleNotKept (hperm.mem_iff.1 hmem) hwritten h
  | unknownKey hmem hwritten h => exact .unknownKey (hperm.mem_iff.1 hmem) hwritten h
  | rejected h hfault => exact .rejected ((hlast _ _ _).1 h) hfault
  | malformedFilter h hbad => exact .malformedFilter ((hlast _ _ _).1 h) hbad

/-- What realises a command line realises it in any order. -/
private theorem Realises.congr [Coercion] {config : Config}
    (h : Realises catalog maxPriority workers names texts config) :
    Realises catalog maxPriority workers named reordered config := by
  refine ⟨h.maxPriority, h.workers, h.descriptions, ?_, h.nodup, h.valid⟩
  rw [← keptRules_congr hnames]
  exact h.rules.imp fun _ _ => IsConfigured.congr hperm hlast

end Reordering

/-- What a command line builds, for a catalog of valid rules of different names. Nothing is built for one of the
    reasons of `IsRefused`, and for no other reason; otherwise the kept rules have the last values that they are
    assigned. So neither the order of the names nor that of assignments to different properties counts. -/
theorem build_of_assignments [Coercion] {catalog : Catalog} (hnames : catalog.names.Nodup)
    (hvalid : ∀ rule ∈ catalog.rules, rule.validate = .ok ()) (maxPriority workers : Int)
    (names texts : List String) :
    ((∃ e, build catalog maxPriority workers names texts = .error e) ↔
      IsRefused catalog maxPriority workers names texts) ∧
    (¬ IsRefused catalog maxPriority workers names texts →
      ∃ config, build catalog maxPriority workers names texts = .ok config ∧
        Realises catalog maxPriority workers names texts config) ∧
    ∀ named reordered, (∀ name, name ∈ names ↔ name ∈ named) → Relation.ReflTransGen Swapped texts reordered →
      (build catalog maxPriority workers named reordered).toOption =
        (build catalog maxPriority workers names texts).toOption := by
  have hbuilt : ∀ names texts, ¬ IsRefused catalog maxPriority workers names texts →
      ∃ config, build catalog maxPriority workers names texts = .ok config ∧
        Realises catalog maxPriority workers names texts config := by
    intro names texts hnot
    obtain ⟨config, hconfig⟩ := (exists_build_eq_ok_iff hnames hvalid).2 hnot
    exact ⟨config, hconfig, realises_of_build hnames hvalid hconfig⟩
  have hfails : ∀ names texts, (∃ e, build catalog maxPriority workers names texts = .error e) ↔
      IsRefused catalog maxPriority workers names texts := by
    intro names texts
    rw [← not_iff_not, ← exists_build_eq_ok_iff hnames hvalid]
    cases build catalog maxPriority workers names texts <;> simp
  refine ⟨hfails names texts, hbuilt names texts, fun named reordered hsame htexts => ?_⟩
  obtain ⟨hperm, hlast⟩ := lastAssigned_iff_of_reordered htexts
  by_cases hrefused : IsRefused catalog maxPriority workers names texts
  · -- both are refused
    obtain ⟨e, he⟩ := (hfails names texts).2 hrefused
    obtain ⟨e', he'⟩ := (hfails named reordered).2 (hrefused.congr hperm hlast hsame)
    rw [he, he']
    rfl
  · -- both are built, and what realises the one realises the other
    have hlast' := fun rule key value => (hlast rule key value).symm
    have hrefused' : ¬ IsRefused catalog maxPriority workers named reordered := fun h =>
      hrefused (h.congr hperm.symm hlast' fun name => (hsame name).symm)
    obtain ⟨config, hconfig, hrealises⟩ := hbuilt names texts hrefused
    obtain ⟨other, hother, hrealises'⟩ := hbuilt named reordered hrefused'
    rw [hconfig, hother, hrealises'.unique (hrealises.congr hperm hlast hsame)]

/-- A value that is refused does no harm once another one is assigned, whatever stands in between. -/
theorem build_of_assignments_overwritten :
    let names := ["ReturnFromFinallyBlock", "DuplicateImport"]
    let texts := ["DuplicateImport.priority=9", " DuplicateImport.apply_to_file_names = *=*, a.b ",
      "DuplicateImport.priority = 1", "ReturnFromFinallyBlock.enabled=OFF"]
    (Catalog.shipped.names.Nodup ∧ ∀ rule ∈ Catalog.shipped.rules, rule.validate = .ok ()) ∧
      ∃ config, build Catalog.shipped 3 1 names texts = .ok config ∧
        Realises Catalog.shipped 3 1 names texts config := by
  intro names texts
  have hnames : Catalog.shipped.names.Nodup := by decide
  have hvalid : ∀ rule ∈ Catalog.shipped.rules, rule.validate = .ok () := by
    simp only [Catalog.shipped, List.forall_mem_cons]
    exact ⟨rfl, rfl, rfl, rfl, rfl, nofun⟩
  obtain ⟨hrefused, hbuilt, -⟩ := build_of_assignments hnames hvalid 3 1 names texts
  refine ⟨⟨hnames, hvalid⟩, hbuilt fun h => ?_⟩
  obtain ⟨e, he⟩ := hrefused.2 h
  -- running it gives a configuration, so nothing is refused
  have hok : (build Catalog.shipped 3 1 names texts).isOk = true := by decide +kernel
  rw [he] at hok
  cases hok

end Config

end JavaLint
