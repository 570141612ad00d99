import JavaLint.Proofs.Config.Overrides
import JavaLint.Setting.Lenient

/-!
# What overrides change and what they leave alone

Overrides are applied entry by entry up to the first that fails, and nothing is taken back, so a configuration can
be left changed in part. Still each entry changes one rule only, the last one with its name, and in it only the
properties that are given a value. This holds also where several rules share a name, of which the others stay as
they are.

- `Rule.Takes`: one rule before and after
- `Config.IsLast`, `Config.Becomes`: a configuration before and after some entries
- `Config.applyOverride_cases`: everything that one entry can do
- `Config.Becomes.cons`, `Config.Becomes.isValidAt`: one entry and then others, which have other names
- `Config.Ends`, `Config.configure_ends`: how overrides end, and what they have changed by then
- `Config.configure_confined`: what holds of the configuration afterwards, in either case
-/

namespace JavaLint

/-! ## One rule -/

/-- The values are for known properties, and each of them can be coerced. -/
def Property.AreCoercible [Coercion] (values : Keyed Setting) : Prop :=
  (∀ key ∈ values.map Prod.fst, ∃ p : Property, p.key = key) ∧
    ∀ (p : Property) (value : Setting), values.lookup p.key = some value → ∃ s, p.coerce value = .ok s

namespace Rule

/-- The changed rule is the same rule with the given values, once they are coerced. Properties that are not given a
    value are as they were. -/
structure Takes [Coercion] (rule : Rule) (values : Keyed Setting) (changed : Rule) : Prop where
  typeName : changed.typeName = rule.typeName
  name : changed.name = rule.name
  detector : changed.detector = rule.detector
  given : ∀ (p : Property) (value : Setting), values.lookup p.key = some value →
    p.coerce value = .ok (changed.properties.get p)
  kept : ∀ p : Property, p.key ∉ values.map Prod.fst → changed.properties.get p = rule.properties.get p

/-- Values that can all be coerced are taken. -/
private theorem takes_override [Coercion] {values : Keyed Setting} (h : Property.AreCoercible values) (rule : Rule) :
    rule.Takes values (rule.override values) where
  typeName := rfl
  name := rfl
  detector := rfl
  given := by
    intro p value hvalue
    obtain ⟨s, hs⟩ := h.2 p value hvalue
    rw [get_override, Property.coerced?, hvalue, Option.bind_some, hs]
    rfl
  kept := by
    intro p hp
    -- a property without a value keeps its own
    have hnone : values.lookup p.key = none := by
      rw [Option.eq_none_iff_forall_ne_some]
      exact fun value hvalue => hp (Keyed.exists_lookup_eq_some_iff.1 ⟨value, hvalue⟩)
    rw [get_override, Property.coerced?, hnone]
    rfl

end Rule

namespace Config

/-! ## A configuration before and after -/

/-- The rule at the index is the last one with this name. -/
def IsLast (config : Config) (name : String) (i : Nat) : Prop :=
  (config.rules.map (·.name))[i]? = some name ∧ ∀ j, i < j → (config.rules.map (·.name))[j]? ≠ some name

/-- The changed configuration is the same one with some entries applied. It has the same settings and the same rules
    at the same places; a rule is as it was, unless it is the last one with the name of an entry, and such a rule
    takes the values of the entry. -/
structure Becomes [Coercion] (config : Config) (entries : Overrides Setting) (changed : Config) : Prop where
  maxPriority : changed.maxPriority = config.maxPriority
  workers : changed.workers = config.workers
  descriptions : changed.descriptions = config.descriptions
  names : changed.rules.map (·.name) = config.rules.map (·.name)
  kept : ∀ i, (∀ entry ∈ entries, ¬ config.IsLast entry.1 i) → changed.rules[i]? = config.rules[i]?
  taken : ∀ entry ∈ entries, ∃ i rule new, config.IsLast entry.1 i ∧ config.rules[i]? = some rule ∧
    changed.rules[i]? = some new ∧ rule.Takes entry.2 new

/-- Nothing but what the entries name differs between the configurations: not the settings, not the rules that are
    there, no rule but the last one with the name of an entry, and in it no property but those of the entry. -/
structure ConfinedTo (config : Config) (entries : Overrides Setting) (changed : Config) : Prop where
  maxPriority : changed.maxPriority = config.maxPriority
  workers : changed.workers = config.workers
  descriptions : changed.descriptions = config.descriptions
  names : changed.rules.map (·.name) = config.rules.map (·.name)
  rules : ∀ i, (∀ entry ∈ entries, ¬ config.IsLast entry.1 i) → changed.rules[i]? = config.rules[i]?
  properties : ∀ entry ∈ entries, ∀ i rule new, config.IsLast entry.1 i → config.rules[i]? = some rule →
    changed.rules[i]? = some new → new.typeName = rule.typeName ∧ new.detector = rule.detector ∧
      ∀ p : Property, p.key ∉ entry.2.map Prod.fst → new.properties.get p = rule.properties.get p

/-- The last rule with the name, if there is one, is valid. -/
def IsValidAt (config : Config) (name : String) : Prop :=
  ∀ i rule, config.IsLast name i → config.rules[i]? = some rule → rule.validate = .ok ()

/-- A place has one name. -/
private theorem IsLast.name_eq {config : Config} {name other : String} {i : Nat} (h : config.IsLast name i)
    (hother : config.IsLast other i) : name = other :=
  Option.some.inj (h.1.symm.trans hother.1)

/-- A name has one last place. -/
private theorem IsLast.index_eq {config : Config} {name : String} {i j : Nat} (h : config.IsLast name i)
    (hj : config.IsLast name j) : i = j := by
  rcases Nat.lt_trichotomy i j with hlt | heq | hgt
  · exact absurd hj.1 (h.2 j hlt)
  · exact heq
  · exact absurd h.1 (hj.2 i hgt)

/-- A rule is the last one with its name if no rule after it has the name. -/
private theorem isLast_of_rules_eq {config : Config} {before after : List Rule} {rule : Rule}
    (h : config.rules = before ++ rule :: after) (hafter : rule.name ∉ after.map (·.name)) :
    config.IsLast rule.name before.length := by
  unfold IsLast
  rw [h]
  constructor
  · simp
  · intro j hj hname
    -- behind the rule itself come the rules after it
    obtain ⟨k, rfl⟩ := Nat.exists_eq_add_of_lt hj
    rw [List.map_append, List.getElem?_append_right (by simp; omega)] at hname
    simp only [List.length_map, Nat.add_assoc, Nat.add_sub_cancel_left, List.map_cons,
      List.getElem?_cons_succ] at hname
    exact hafter (List.mem_of_getElem? hname)

/-- Which rule is the last one with a name does not change. -/
private theorem Becomes.isLast_iff [Coercion] {config changed : Config} {entries : Overrides Setting}
    (h : config.Becomes entries changed) {name : String} {i : Nat} :
    changed.IsLast name i ↔ config.IsLast name i := by
  unfold IsLast
  rw [h.names]

/-- Without entries a configuration stays as it is. -/
private theorem becomes_nil [Coercion] (config : Config) : config.Becomes [] config :=
  ⟨rfl, rfl, rfl, rfl, fun _ _ => rfl, nofun⟩

/-- One entry and then others with other names. -/
theorem Becomes.cons [Coercion] {config between changed : Config} {name : String} {values : Keyed Setting}
    {rest : Overrides Setting} (hfirst : config.Becomes [(name, values)] between)
    (hrest : between.Becomes rest changed) (hname : name ∉ rest.map Prod.fst) :
    config.Becomes ((name, values) :: rest) changed where
  maxPriority := hrest.maxPriority.trans hfirst.maxPriority
  workers := hrest.workers.trans hfirst.workers
  descriptions := hrest.descriptions.trans hfirst.descriptions
  names := hrest.names.trans hfirst.names
  kept := by
    intro i hi
    obtain ⟨hentry, hothers⟩ := List.forall_mem_cons.1 hi
    -- neither the first entry nor the others are for the rule at this place
    rw [hrest.kept i fun entry hmem => by rw [hfirst.isLast_iff]; exact hothers entry hmem]
    exact hfirst.kept i (by simpa using hentry)
  taken := by
    intro entry hmem
    rcases List.mem_cons.1 hmem with rfl | hmem
    · -- the place of the first entry is not that of another name
      obtain ⟨i, rule, new, hlast, hrule, hnew, htakes⟩ := hfirst.taken _ List.mem_cons_self
      refine ⟨i, rule, new, hlast, hrule, ?_, htakes⟩
      rw [hrest.kept i, hnew]
      intro other hother hother'
      rw [hfirst.isLast_iff] at hother'
      exact hname (List.mem_map.2 ⟨other, hother, hother'.name_eq hlast⟩)
    · -- and the first entry has not touched the places of the others
      obtain ⟨i, rule, new, hlast, hrule, hnew, htakes⟩ := hrest.taken entry hmem
      rw [hfirst.isLast_iff] at hlast
      refine ⟨i, rule, new, hlast, ?_, hnew, htakes⟩
      rw [← hrule, hfirst.kept i]
      intro other hother hother'
      rw [List.mem_singleton.1 hother] at hother'
      exact hname (List.mem_map.2 ⟨entry, hmem, hlast.name_eq hother'⟩)

/-- A valid rule stays so while entries with other names are applied. -/
theorem Becomes.isValidAt [Coercion] {config changed : Config} {entries : Overrides Setting}
    (h : config.Becomes entries changed) {name : String} (hname : name ∉ entries.map Prod.fst)
    (hvalid : config.IsValidAt name) : changed.IsValidAt name := by
  intro i rule hlast hrule
  rw [h.isLast_iff] at hlast
  refine hvalid i rule hlast ?_
  rw [← hrule, h.kept i]
  intro entry hentry hentry'
  exact hname (List.mem_map.2 ⟨entry, hentry, hentry'.name_eq hlast⟩)

/-- Applying some of the entries changes nothing but what all of them name. -/
private theorem Becomes.confinedTo [Coercion] {config changed : Config} {entries overrides : Overrides Setting}
    (h : config.Becomes entries changed) (hsub : entries ⊆ overrides)
    (hkeys : (overrides.map Prod.fst).Nodup) : config.ConfinedTo overrides changed where
  maxPriority := h.maxPriority
  workers := h.workers
  descriptions := h.descriptions
  names := h.names
  rules := fun i hi => h.kept i fun entry hentry => hi entry (hsub hentry)
  properties := by
    intro entry hentry i rule new hlast hrule hnew
    by_cases happlied : entry ∈ entries
    · obtain ⟨j, old, taken, hlast', hold, htaken, htakes⟩ := h.taken entry happlied
      -- the rule that took the values is the one at this place
      obtain rfl := hlast.index_eq hlast'
      obtain rfl : old = rule := Option.some.inj (hold.symm.trans hrule)
      obtain rfl : taken = new := Option.some.inj (htaken.symm.trans hnew)
      exact ⟨htakes.typeName, htakes.detector, htakes.kept⟩
    · -- no other entry has the name, so the rule is as it was
      have hkept : changed.rules[i]? = config.rules[i]? := by
        refine h.kept i fun other hother hother' => happlied ?_
        rwa [← List.inj_on_of_nodup_map hkeys (hsub hother) hentry (hother'.name_eq hlast)]
      obtain rfl : new = rule := Option.some.inj (hnew.symm.trans (hkept.trans hrule))
      exact ⟨rfl, rfl, fun _ _ => rfl⟩

/-! ## One entry -/

/-- The last rule with the name is replaced where it stands. -/
private theorem replaceLast_append {before after : List Rule} {name : String} {rule : Rule} (new : Rule)
    (hname : rule.name = name) (hafter : name ∉ after.map (·.name)) :
    replaceLast (·.name == name) new (before ++ rule :: after) = before ++ new :: after := by
  have hnone : after.any (·.name == name) = false := by
    simpa [List.any_eq_false] using hafter
  induction before with
  | nil => simp [replaceLast, hname, hnone]
  | cons other before ih =>
    -- the last rule with the name is further on
    have hsome : (before ++ rule :: after).any (·.name == name) = true := by simp [hname]
    rw [List.cons_append, replaceLast, hsome, ih]
    simp

/-- The rule that an entry is for is the last one with its name. -/
private theorem exists_rules_eq_of_find? {rules : List Rule} {name : String} {rule : Rule}
    (h : rules.reverse.find? (·.name == name) = some rule) :
    rule.name = name ∧ ∃ before after, rules = before ++ rule :: after ∧ name ∉ after.map (·.name) := by
  obtain ⟨hname, after, before, hrules, hafter⟩ := List.find?_eq_some_iff_append.1 h
  refine ⟨by simpa using hname, before.reverse, after.reverse, ?_, ?_⟩
  · rw [← List.reverse_reverse rules, hrules]
    simp
  · simpa using hafter

/-- Everything that an entry can do. -/
theorem applyOverride_cases [Coercion] (config : Config) (name : String) (values : Keyed Setting) :
    name ∉ config.rules.map (·.name) ∧
        config.applyOverride name values = (config, .error (.unconfigurableRule name)) ∨
    ∃ before rule after, config.rules = before ++ rule :: after ∧ rule.name = name ∧
      name ∉ after.map (·.name) ∧
      (¬ Property.AreCoercible values ∧ config.applyOverride name values =
          (config, .error (.invalidProperties name (Property.invalidFields values))) ∨
        Property.AreCoercible values ∧ config.applyOverride name values =
          ({ config with rules := before ++ rule.override values :: after },
            (rule.override values).validate)) := by
  unfold applyOverride
  cases hfind : config.rules.reverse.find? (·.name == name) with
  | none => exact .inl ⟨by simpa using hfind, rfl⟩
  | some rule =>
    obtain ⟨hname, before, after, hrules, hafter⟩ := exists_rules_eq_of_find? hfind
    refine .inr ⟨before, rule, after, hrules, hname, hafter, ?_⟩
    -- the values are coerced all together, or not at all
    by_cases hfields : Property.invalidFields values = []
    · refine .inr ⟨Property.invalidFields_eq_nil_iff.1 hfields, ?_⟩
      rw [hrules, ← replaceLast_append (rule.override values) hname hafter]
      simp only [Property.coerceAll_eq_ok hfields]
      rfl
    · refine .inl ⟨fun h => hfields (Property.invalidFields_eq_nil_iff.2 h), ?_⟩
      simp only [Property.coerceAll_eq_error hfields]

/-- An entry whose values can be coerced changes the last rule with its name. -/
private theorem becomes_override [Coercion] {config : Config} {before after : List Rule} {rule : Rule}
    {values : Keyed Setting} (hrules : config.rules = before ++ rule :: after)
    (hafter : rule.name ∉ after.map (·.name)) (hvalues : Property.AreCoercible values) :
    config.Becomes [(rule.name, values)]
      { config with rules := before ++ rule.override values :: after } where
  maxPriority := rfl
  workers := rfl
  descriptions := rfl
  names := by
    rw [hrules]
    simp [Rule.override]
  kept := by
    intro i hi
    -- only the place of the rule itself changes
    have hne : i ≠ before.length := by
      rintro rfl
      exact hi _ List.mem_cons_self (isLast_of_rules_eq hrules hafter)
    rw [hrules]
    simp only [List.getElem?_append]
    split
    · rfl
    · obtain ⟨k, hk⟩ : ∃ k, i - before.length = k + 1 := ⟨i - before.length - 1, by omega⟩
      rw [hk, List.getElem?_cons_succ, List.getElem?_cons_succ]
  taken := by
    intro entry hentry
    rw [List.mem_singleton.1 hentry]
    refine ⟨before.length, rule, rule.override values, isLast_of_rules_eq hrules hafter, ?_, ?_,
      Rule.takes_override hvalues rule⟩
    · simp [hrules]
    · simp

/-- The changed rule is still the last one with its name. -/
private theorem isLast_override [Coercion] (config : Config) (before : List Rule) {after : List Rule} {rule : Rule}
    (values : Keyed Setting) (hafter : rule.name ∉ after.map (·.name)) :
    IsLast { config with rules := before ++ rule.override values :: after } rule.name before.length := by
  show IsLast _ (rule.override values).name before.length
  exact isLast_of_rules_eq rfl hafter

/-- The last rule with the name is the changed one, so it is valid if that is. -/
private theorem isValidAt_override [Coercion] (config : Config) (before : List Rule) {after : List Rule} {rule : Rule}
    {values : Keyed Setting} (hafter : rule.name ∉ after.map (·.name))
    (hvalid : (rule.override values).validate = .ok ()) :
    IsValidAt { config with rules := before ++ rule.override values :: after } rule.name := by
  intro i other hlast hother
  obtain rfl := hlast.index_eq (isLast_override config before values hafter)
  obtain rfl : rule.override values = other := by simpa using hother
  exact hvalid

/-! ## All entries -/

/-- How an entry fails after those of `done`, and what the configuration has become by then. The rule of the entry
    is left alone unless all of its values can be coerced, and otherwise has all of them, valid or not. -/
inductive Fails [Coercion] (config : Config) (done : Overrides Setting) (name : String) (values : Keyed Setting)
    (changed : Config) : ConfigError → Prop where
  | unknown (hname : name ∉ config.rules.map (·.name)) (h : config.Becomes done changed) :
      Fails config done name values changed (.unconfigurableRule name)
  | rejected (hname : name ∈ config.rules.map (·.name)) (hvalues : ¬ Property.AreCoercible values)
      (h : config.Becomes done changed) :
      Fails config done name values changed (.invalidProperties name (Property.invalidFields values))
  | invalid {i : Nat} {rule : Rule} {e : ConfigError} (hvalues : Property.AreCoercible values)
      (h : config.Becomes (done ++ [(name, values)]) changed) (hlast : changed.IsLast name i)
      (hrule : changed.rules[i]? = some rule) (hinvalid : rule.validate = .error e) :
      Fails config done name values changed e

/-- What fails after some entries fails in the same way after one more in front of them. -/
private theorem Fails.cons [Coercion] {config between changed : Config} {first : String} {given : Keyed Setting}
    {done : Overrides Setting} {name : String} {values : Keyed Setting} {e : ConfigError}
    (hfirst : config.Becomes [(first, given)] between) (h : between.Fails done name values changed e)
    (hname : first ∉ (done ++ [(name, values)]).map Prod.fst) :
    config.Fails ((first, given) :: done) name values changed e := by
  have hdone : first ∉ done.map Prod.fst := by
    intro hmem
    rw [List.map_append] at hname
    exact hname (List.mem_append_left _ hmem)
  cases h with
  | unknown hunknown h => exact .unknown (hfirst.names ▸ hunknown) (hfirst.cons h hdone)
  | rejected hknown hvalues h => exact .rejected (hfirst.names ▸ hknown) hvalues (hfirst.cons h hdone)
  | invalid hvalues h hlast hrule hinvalid => exact .invalid hvalues (hfirst.cons h hname) hlast hrule hinvalid

/-- An entry that fails leaves the rules of other names valid if they were. -/
private theorem Fails.isValidAt [Coercion] {config changed : Config} {done : Overrides Setting} {name other : String}
    {values : Keyed Setting} {e : ConfigError} (h : config.Fails done name values changed e)
    (hother : other ∉ (done ++ [(name, values)]).map Prod.fst) (hvalid : config.IsValidAt other) :
    changed.IsValidAt other := by
  have hdone : other ∉ done.map Prod.fst := by
    intro hmem
    rw [List.map_append] at hother
    exact hother (List.mem_append_left _ hmem)
  cases h with
  | unknown _ h => exact h.isValidAt hdone hvalid
  | rejected _ _ h => exact h.isValidAt hdone hvalid
  | invalid _ h => exact h.isValidAt hother hvalid

/-- How overrides end: all of them are applied and the rules that they change are valid, or one of them fails and
    only those before it are valid. What follows the one that fails does not matter. -/
inductive Ends [Coercion] (config : Config) (overrides : Overrides Setting) (changed : Config) :
    Except ConfigError Unit → Prop where
  | applied (h : config.Becomes overrides changed) (hvalid : ∀ entry ∈ overrides, changed.IsValidAt entry.1) :
      Ends config overrides changed (.ok ())
  | failed {done later : Overrides Setting} {name : String} {values : Keyed Setting} {e : ConfigError}
      (hsplit : overrides = done ++ (name, values) :: later) (hvalid : ∀ entry ∈ done, changed.IsValidAt entry.1)
      (h : config.Fails done name values changed e)
      (hlater : ∀ others, config.configure (done ++ (name, values) :: others) = (changed, .error e)) :
      Ends config overrides changed (.error e)

/-- However overrides end, some of them have been applied, and no others. -/
private theorem Ends.exists_becomes [Coercion] {config changed : Config} {overrides : Overrides Setting}
    {outcome : Except ConfigError Unit} (h : config.Ends overrides changed outcome) :
    ∃ entries, entries ⊆ overrides ∧ config.Becomes entries changed := by
  cases h with
  | applied h _ => exact ⟨overrides, List.Subset.refl _, h⟩
  | failed hsplit _ h _ =>
    rw [hsplit]
    cases h with
    | unknown _ h => exact ⟨_, by simp, h⟩
    | rejected _ _ h => exact ⟨_, by simp, h⟩
    | invalid _ h => exact ⟨_, by simp, h⟩

/-- One entry that is accepted and then others. -/
private theorem Ends.cons [Coercion] {config between changed : Config} {name : String} {values : Keyed Setting}
    {rest : Overrides Setting} {outcome : Except ConfigError Unit}
    (happly : config.applyOverride name values = (between, .ok ()))
    (hfirst : config.Becomes [(name, values)] between) (hvalid : between.IsValidAt name)
    (h : between.Ends rest changed outcome) (hname : name ∉ rest.map Prod.fst) :
    config.Ends ((name, values) :: rest) changed outcome := by
  cases h with
  -- all of them are applied
  | applied h hrest =>
    exact .applied (hfirst.cons h hname) (List.forall_mem_cons.2 ⟨h.isValidAt hname hvalid, hrest⟩)
  | @failed done later other given e hsplit hdone h hlater =>
    -- the first entry has another name than those up to the one that fails
    have hname' : name ∉ (done ++ [(other, given)]).map Prod.fst := by
      rw [hsplit] at hname
      simp only [List.map_append, List.map_cons, List.map_nil, List.mem_append, List.mem_cons] at hname ⊢
      tauto
    have hsplit' : (name, values) :: rest = ((name, values) :: done) ++ (other, given) :: later := by
      rw [hsplit]
      rfl
    refine .failed hsplit' ?_ (h.cons hfirst hname') ?_
    · exact List.forall_mem_cons.2 ⟨h.isValidAt hname' hvalid, hdone⟩
    · intro others
      rw [List.cons_append, configure, happly]
      exact hlater others

/-- Whatever the overrides are, they end in one of these ways. -/
theorem configure_ends [Coercion] (config : Config) {overrides : Overrides Setting}
    (hkeys : (overrides.map Prod.fst).Nodup) :
    ∃ changed outcome, config.configure overrides = (changed, outcome) ∧ config.Ends overrides changed outcome := by
  -- the entries after the first start from what it has made of the configuration
  induction overrides generalizing config with
  | nil => exact ⟨config, .ok (), rfl, .applied config.becomes_nil (List.forall_mem_nil _)⟩
  | cons entry rest ih =>
    obtain ⟨name, values⟩ := entry
    obtain ⟨hname, hrest⟩ := List.nodup_cons.1 hkeys
    have hsplit : (name, values) :: rest = [] ++ (name, values) :: rest := rfl
    -- an entry that fails is the last that is looked at
    have hstop : ∀ {changed e}, config.applyOverride name values = (changed, .error e) →
        ∀ others, config.configure ((name, values) :: others) = (changed, .error e) := by
      intro changed e happly others
      rw [configure, happly]
    obtain ⟨hunknown, happly⟩ | ⟨before, rule, after, hrules, rfl, hafter, hvalues⟩ :=
      config.applyOverride_cases name values
    · exact ⟨config, _, hstop happly rest,
        .failed hsplit (List.forall_mem_nil _) (.unknown hunknown config.becomes_nil) (hstop happly)⟩
    obtain ⟨hvalues, happly⟩ | ⟨hvalues, happly⟩ := hvalues
    · have hknown : rule.name ∈ config.rules.map (·.name) := by simp [hrules]
      exact ⟨config, _, hstop happly rest,
        .failed hsplit (List.forall_mem_nil _) (.rejected hknown hvalues config.becomes_nil) (hstop happly)⟩
    -- the values are taken, and only now the rule is checked
    have hfirst := becomes_override hrules hafter hvalues
    cases hvalid : (rule.override values).validate with
    | error e =>
      rw [hvalid] at happly
      have hlast := isLast_override config before values hafter
      exact ⟨_, _, hstop happly rest,
        .failed hsplit (List.forall_mem_nil _) (.invalid hvalues hfirst hlast (by simp) hvalid) (hstop happly)⟩
    | ok _ =>
      rw [hvalid] at happly
      obtain ⟨changed, outcome, hrun, hends⟩ :=
        ih { config with rules := before ++ rule.override values :: after } hrest
      have hvalidFirst := isValidAt_override config before hafter hvalid
      refine ⟨changed, outcome, ?_, hends.cons happly hfirst hvalidFirst hname⟩
      rw [configure, happly]
      exact hrun

/-- Overrides with one entry for each name touch only what they name, whether they succeed or fail. If they succeed,
    the rules of all entries have their values and are valid. If they fail, they do so at an entry: those before it
    are applied and their rules are valid, the rule of the entry itself has either all of its values or none, and the
    entries behind it might as well have been others. -/
theorem configure_confined [Coercion] (config : Config) (overrides : Overrides Setting)
    (hkeys : (overrides.map Prod.fst).Nodup) :
    ∃ changed outcome, config.configure overrides = (changed, outcome) ∧ config.ConfinedTo overrides changed ∧
      (outcome = .ok () →
        config.Becomes overrides changed ∧ ∀ entry ∈ overrides, changed.IsValidAt entry.1) ∧
      ∀ e, outcome = .error e → ∃ done name values later, overrides = done ++ (name, values) :: later ∧
        (∀ entry ∈ done, changed.IsValidAt entry.1) ∧ config.Fails done name values changed e ∧
        ∀ others, config.configure (done ++ (name, values) :: others) = (changed, .error e) := by
  obtain ⟨changed, outcome, hrun, hends⟩ := config.configure_ends hkeys
  refine ⟨changed, outcome, hrun, ?_, ?_⟩
  · -- however it ended, what was applied are entries of the map
    obtain ⟨entries, hsub, hbecomes⟩ := hends.exists_becomes
    exact hbecomes.confinedTo hsub hkeys
  · cases hends with
    | applied h hvalid => exact ⟨fun _ => ⟨h, hvalid⟩, nofun⟩
    | failed hsplit hvalid h hlater =>
      refine ⟨nofun, fun e he => ?_⟩
      cases he
      exact ⟨_, _, _, _, hsplit, hvalid, h, hlater⟩

/-- Three rules, two of which have the same name. -/
def sharedNames : Config where
  rules := [.duplicateImport, .returnFromFinallyBlock,
    { Rule.duplicateImport with properties := { priority := .int 1, description := .text "Imported twice." } }]

/-- An entry that is accepted, one that makes its rule invalid, and one for a rule that is not there. -/
def halfAccepted : Overrides Setting :=
  [("DuplicateImport", [("priority", .text "4"), ("enabled", .null)]),
    ("ReturnFromFinallyBlock", [("apply_to_file_names", .text "a[b"), ("priority", .bool true)]),
    ("NoSuchRule", [("priority", .int 9)])]

/-- The first entry is applied to the last of the two rules, the second fails after it is applied, and the
    third is not looked at. -/
theorem configure_confined_halfAccepted :
    (halfAccepted.map Prod.fst).Nodup ∧
      ∃ changed e, sharedNames.configure halfAccepted = (changed, .error e) ∧
        sharedNames.ConfinedTo halfAccepted changed ∧
        changed.rules.map (·.priority.number?) = [some 3, some 1, some 4] ∧
        ∃ done name values later, halfAccepted = done ++ (name, values) :: later ∧
          (∀ entry ∈ done, changed.IsValidAt entry.1) ∧ sharedNames.Fails done name values changed e := by
  have hkeys : (halfAccepted.map Prod.fst).Nodup := by decide
  -- the second of the two rules with the same name has the new priority
  have hpriorities : (sharedNames.configure halfAccepted).1.rules.map (·.priority.number?) =
      [some 3, some 1, some 4] := by decide +kernel
  have hfails : (sharedNames.configure halfAccepted).2.isOk = false := by decide +kernel
  obtain ⟨changed, outcome, hrun, hconfined, -, herror⟩ := sharedNames.configure_confined halfAccepted hkeys
  rw [hrun] at hpriorities hfails
  cases outcome with
  | ok _ => cases hfails
  | error e =>
    obtain ⟨done, name, values, later, hsplit, hvalid, hentry, -⟩ := herror e rfl
    exact ⟨hkeys, changed, e, hrun, hconfined, hpriorities, done, name, values, later, hsplit, hvalid, hentry⟩

end Config

end JavaLint
