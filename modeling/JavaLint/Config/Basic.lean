import JavaLint.Rule.Catalog
import JavaLint.Rule.Description

/-!
# Configurations

A configuration is the list of rules in the order in which they run, the settings of the report, and the
number of workers. It is validated as a whole before anything is analysed.
-/

namespace JavaLint

/-- A configuration. -/
structure Config where
  rules : List Rule := []
  maxPriority : Int := Rule.defaultMaxPriority
  workers : Int := 1
  descriptions : Bundle := .shipped
  deriving Repr

namespace Config

/-- Every rule of a catalog with its default properties. -/
def ofCatalog (catalog : Catalog) : Config :=
  { rules := catalog.rules }

/-- The rules that are enabled, in order. -/
def enabledRules (config : Config) : List Rule :=
  config.rules.filter (·.isEnabled)

/-- Keeps only the rules with the given names, in the configured order. -/
def select (config : Config) (names : List String) : Except ConfigError Config :=
  let known := config.rules.map (·.name)
  match names.filter (!known.contains ·) with
  | [] => .ok { config with rules := config.rules.filter fun rule => names.contains rule.name }
  | unknown => .error (.unknownSelection unknown)

/-- The names that more than one rule has, sorted. -/
def duplicateNames (config : Config) : List String :=
  let names := config.rules.map (·.name)
  (names.filter fun name => 1 < names.count name).eraseDups.mergeSort fun a b => a ≤ b

/-- Checks the priority of the report, the number of workers, the names of the rules and then each rule. -/
def validate (config : Config) : Except ConfigError Unit := do
  if config.maxPriority < Rule.minPriority ∨ Rule.maxPriority < config.maxPriority then
    .error (.maxPriorityOutOfRange config.maxPriority)
  if config.workers < 1 then .error (.tooFewWorkers config.workers)
  match config.duplicateNames with
  | [] => config.rules.forM Rule.validate
  | duplicates => .error (.duplicateNames duplicates)

/-- Checks a configuration that may be absent. -/
def validateGiven (config : Option Config) : Except Error Unit :=
  match config with
  | none => .error (.missing .config)
  | some config =>
    match config.validate with
    | .ok _ => .ok ()
    | .error e => .error (.config e)

end Config

end JavaLint
