import JavaLint.Setting.Basic

/-!
# Properties of rules

Every rule has the same seven properties: its priority, whether it is enabled, its description, and four
filters that limit the files it runs on.
-/

namespace JavaLint

/-- The filters of a rule, in the order in which they are declared. -/
inductive Filter where
  | onlyFiles
  | skipFiles
  | onlyClasses
  | skipClasses
  deriving DecidableEq, Repr

namespace Filter

/-- All filters in order. -/
def all : List Filter := [.onlyFiles, .skipFiles, .onlyClasses, .skipClasses]

/-- The key that a filter is configured by. -/
def key : Filter → String
  | .onlyFiles => "apply_to_file_names"
  | .skipFiles => "do_not_apply_to_file_names"
  | .onlyClasses => "apply_to_class_names"
  | .skipClasses => "do_not_apply_to_class_names"

end Filter

/-- The properties of a rule. -/
inductive Property where
  | priority
  | enabled
  | description
  | filter (which : Filter)
  deriving DecidableEq, Repr

namespace Property

/-- All properties in the order in which they are declared. -/
def all : List Property := [.priority, .enabled, .description] ++ Filter.all.map .filter

/-- The key that a property is configured by. -/
def key : Property → String
  | .priority => "priority"
  | .enabled => "enabled"
  | .description => "description"
  | .filter which => which.key

/-- The property with the given key. -/
def ofKey? (key : String) : Option Property :=
  all.find? (·.key == key)

end Property

/-- The values of a rule's properties. Nothing is checked before the rule is validated. -/
structure Properties where
  priority : Setting := .int 2
  enabled : Setting := .bool true
  description : Setting := .null
  onlyFiles : Setting := .null
  skipFiles : Setting := .null
  onlyClasses : Setting := .null
  skipClasses : Setting := .null
  deriving Repr

namespace Properties

/-- The value of a filter. -/
def getFilter (p : Properties) : Filter → Setting
  | .onlyFiles => p.onlyFiles
  | .skipFiles => p.skipFiles
  | .onlyClasses => p.onlyClasses
  | .skipClasses => p.skipClasses

/-- The value of a property. -/
def get (p : Properties) : Property → Setting
  | .priority => p.priority
  | .enabled => p.enabled
  | .description => p.description
  | .filter which => p.getFilter which

/-- Gives a property a value. -/
def set (p : Properties) (property : Property) (value : Setting) : Properties :=
  match property with
  | .priority => { p with priority := value }
  | .enabled => { p with enabled := value }
  | .description => { p with description := value }
  | .filter .onlyFiles => { p with onlyFiles := value }
  | .filter .skipFiles => { p with skipFiles := value }
  | .filter .onlyClasses => { p with onlyClasses := value }
  | .filter .skipClasses => { p with skipClasses := value }

/-- A property has the value that it was given. -/
@[simp]
theorem get_set_self (p : Properties) (property : Property) (value : Setting) :
    (p.set property value).get property = value := by
  cases property with
  | filter which => cases which <;> rfl
  | _ => rfl

/-- All other properties keep theirs. -/
theorem get_set_ne (p : Properties) {a b : Property} (value : Setting) (h : a ≠ b) :
    (p.set a value).get b = p.get b := by
  cases a with
  | filter f => cases f <;> cases b with
    | filter g => cases g <;> simp_all [set, get, getFilter]
    | _ => rfl
  | _ => cases b <;> simp_all [set, get, getFilter]

end Properties

end JavaLint
