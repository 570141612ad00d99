import JavaLint.Config.Basic
import JavaLint.Violation

/-!
# Property overrides

Overrides are given as assignments of the form `RuleName.property=value`, grouped by rule, or directly as
settings. Applying them coerces the values of one rule at a time; the overrides before one that fails stay
applied.
-/

namespace JavaLint

/-- Tables that keep their keys in the order in which they first came. -/
abbrev Keyed (α : Type) := List (String × α)

namespace Keyed

/-- Gives a key a value, in its place if the key is there, otherwise at the end. -/
def insert (key : String) (value : α) : Keyed α → Keyed α
  | [] => [(key, value)]
  | (k, v) :: rest => if k == key then (k, value) :: rest else (k, v) :: insert key value rest

/-- A key has the value that it was given last. -/
theorem lookup_insert_self (key : String) (value : α) (table : Keyed α) :
    (table.insert key value).lookup key = some value := by
  induction table with
  | nil => simp [insert]
  | cons entry rest ih =>
    obtain ⟨k, v⟩ := entry
    -- the value goes in the place of the first entry for the key
    by_cases h : k = key
    · simp [insert, h]
    · have h' : (key == k) = false := beq_eq_false_iff_ne.2 (Ne.symm h)
      simpa [insert, h, List.lookup_cons, h'] using ih

/-- All other keys keep theirs. -/
theorem lookup_insert_ne {key other : String} (value : α) (table : Keyed α) (hne : other ≠ key) :
    (table.insert key value).lookup other = table.lookup other := by
  have h' : (other == key) = false := beq_eq_false_iff_ne.2 hne
  induction table with
  | nil => simp [insert, List.lookup_cons, h']
  | cons entry rest ih =>
    obtain ⟨k, v⟩ := entry
    by_cases h : k = key
    · simp [insert, h, List.lookup_cons, h']
    · simp [insert, h, List.lookup_cons, ih]

/-- The table of a list of pairs; the last value of a key counts. -/
def ofPairs (pairs : List (String × α)) : Keyed α :=
  pairs.foldl (fun table (key, value) => table.insert key value) []

end Keyed

/-- Values for properties, by rule and by key. -/
abbrev Overrides (α : Type) := Keyed (Keyed α)

namespace Overrides

/-- One assignment: a rule, a property and a value. -/
structure Assignment where
  rule : String
  key : String
  value : String
  deriving DecidableEq, Repr

/-- Reads an assignment: what stands before the first equals sign is cut at its first dot, and neither part
    may be empty. Blanks around the key and around the value do not count. -/
def Assignment.ofString (text : String) : Except ConfigError Assignment :=
  match Text.cutFirst? '=' text with
  | none => .error (.malformedAssignment text)
  | some (target, value) =>
    match Text.cutFirst? '.' (Text.trim target) with
    | none => .error (.malformedAssignment text)
    | some (rule, key) =>
      if rule.isEmpty || key.isEmpty then .error (.malformedAssignment text)
      else .ok ⟨rule, key, Text.trim value⟩

/-- Adds an assignment; the last one for a property counts. -/
def assign (overrides : Overrides String) (a : Assignment) : Overrides String :=
  overrides.insert a.rule (((overrides.lookup a.rule).getD []).insert a.key a.value)

/-- Reads a list of assignments; the first that is malformed is the error. -/
def ofAssignments (texts : List String) : Except ConfigError (Overrides String) := do
  return (← texts.mapM Assignment.ofString).foldl assign []

/-- The values of overrides as settings. -/
def toSettings (overrides : Overrides String) : Overrides Setting :=
  overrides.map fun (rule, values) => (rule, values.map fun (key, value) => (key, .text value))

end Overrides

namespace Property

/-- The setting that a value for this property is coerced to. -/
def coerce [Coercion] : Property → Setting → Except FieldFault Setting
  | .priority, s =>
    (Setting.optional (Setting.toIntWithin Rule.minPriority (some Rule.maxPriority)) s).map fun n =>
      (n.map Setting.int).getD .null
  | .enabled, s => (Setting.optional Coercion.toBool s).map fun b => (b.map Setting.bool).getD .null
  | .description, s | .filter _, s =>
    (Setting.optional Coercion.toText s).map fun t => (t.map Setting.text).getD .null

/-- The properties that are given a value, in the order of their declaration, with that value. -/
def given (values : Keyed Setting) : List (Property × Setting) :=
  all.filterMap fun property => (values.lookup property.key).map (property, ·)

/-- What is wrong with the values: those that cannot be coerced in the order of declaration, then the
    unknown keys as they came. -/
def invalidFields [Coercion] (values : Keyed Setting) : List InvalidField :=
  (given values).flatMap (fun (property, value) =>
    Violation.fieldFaults property.key (property.coerce value)) ++
      (values.filter fun (key, _) => (ofKey? key).isNone).map fun (key, _) => ⟨key, .unknownField⟩

/-- The coerced values in the order of declaration, or everything that is wrong with them. -/
def coerceAll [Coercion] (values : Keyed Setting) :
    Except (List InvalidField) (List (Property × Setting)) :=
  match invalidFields values with
  | [] => .ok ((given values).filterMap fun (property, value) =>
      (property.coerce value).toOption.map (property, ·))
  | faults => .error faults

end Property

namespace Properties

/-- Gives several properties their values. -/
def setAll (p : Properties) (values : List (Property × Setting)) : Properties :=
  values.foldl (fun p (property, value) => p.set property value) p

end Properties

namespace Config

/-- Replaces the last element that satisfies `p`. -/
def replaceLast (p : α → Bool) (new : α) : List α → List α
  | [] => []
  | a :: rest => if p a && !rest.any p then new :: rest else a :: replaceLast p new rest

/-- Applies the overrides of one rule: the last rule with that name is given the coerced values and
    validated. It keeps the new values even if it is not valid with them. -/
def applyOverride [Coercion] (config : Config) (name : String) (values : Keyed Setting) :
    Config × Except ConfigError Unit :=
  match config.rules.reverse.find? (·.name == name) with
  | none => (config, .error (.unconfigurableRule name))
  | some rule =>
    match Property.coerceAll values with
    | .error fields => (config, .error (.invalidProperties name fields))
    | .ok coerced =>
      let changed := { rule with properties := rule.properties.setAll coerced }
      ({ config with rules := replaceLast (·.name == name) changed config.rules }, changed.validate)

/-- Applies overrides rule by rule, up to the first that fails. -/
def configure [Coercion] (config : Config) : Overrides Setting → Config × Except ConfigError Unit
  | [] => (config, .ok ())
  | (name, values) :: rest =>
    match config.applyOverride name values with
    | (config, .ok _) => config.configure rest
    | (config, .error e) => (config, .error e)

/-- The configuration that a command line asks for: every rule of the catalog, or only those named, with
    the assigned properties. -/
def build [Coercion] (catalog : Catalog) (maxPriority workers : Int) (names assignments : List String) :
    Except ConfigError Config := do
  let config := { ofCatalog catalog with maxPriority, workers }
  let config ← if names.isEmpty then pure config else config.select names
  let overrides ← Overrides.ofAssignments assignments
  let (config, outcome) := config.configure overrides.toSettings
  outcome
  config.validate
  return config

end Config

end JavaLint
