import JavaLint.Rule.Basic

/-!
# The catalog of rules

Rules are known by name. The catalog holds one rule of each kind with its default properties, in the order
in which they were registered.
-/

namespace JavaLint

namespace Rule

/-- A boolean callable that also returns null. -/
def booleanMethodReturnsNull : Rule :=
  ⟨"BooleanMethodReturnsNullRule", "BooleanMethodReturnsNull", .booleanReturnsNull, {}⟩

/-- The same import more than once. -/
def duplicateImport : Rule :=
  ⟨"DuplicateImportRule", "DuplicateImport", .duplicateImport, { priority := .int 3 }⟩

/-- A return statement in a finally block. -/
def returnFromFinallyBlock : Rule :=
  ⟨"ReturnFromFinallyBlockRule", "ReturnFromFinallyBlock", .finallyExit .byReturn, {}⟩

/-- A throw statement in a finally block. -/
def throwFromFinallyBlock : Rule :=
  ⟨"ThrowExceptionFromFinallyBlockRule", "ThrowExceptionFromFinallyBlock", .finallyExit .byThrow, {}⟩

/-- A boxed boolean that need not be created. -/
def unnecessaryBooleanInstantiation : Rule :=
  ⟨"UnnecessaryBooleanInstantiationRule", "UnnecessaryBooleanInstantiation", .booleanInstantiation,
    { priority := .int 3 }⟩

/-- The rule that stands for sources which could not be parsed. It finds nothing itself and is not in the
    catalog. -/
def parseFailure : Rule :=
  ⟨"ParseFailureRule", "ParseFailure", .nothing, { priority := .int 1 }⟩

end Rule

/-- Rules known by name, in the order of their registration. -/
structure Catalog where
  rules : List Rule
  deriving Repr

namespace Catalog

/-- The shipped rules. -/
def shipped : Catalog :=
  ⟨[.booleanMethodReturnsNull, .duplicateImport, .returnFromFinallyBlock, .throwFromFinallyBlock,
    .unnecessaryBooleanInstantiation]⟩

/-- The names of the rules. -/
def names (catalog : Catalog) : List String :=
  catalog.rules.map (·.name)

/-- The rule with the given name. -/
def get (catalog : Catalog) (name : String) : Except ConfigError Rule :=
  match catalog.rules.find? (·.name == name) with
  | some rule => .ok rule
  | none => .error (.unknownRule name catalog.names)

/-- A rule with the given name and the given properties. -/
def create (catalog : Catalog) (name : String) (properties : List (String × Setting)) :
    Except ConfigError Rule := do
  (← catalog.get name).withProperties properties

/-- Registers a new rule. Its name must not be taken. -/
def register (catalog : Catalog) (rule : Rule) : Except ConfigError Catalog :=
  match catalog.rules.find? (·.name == rule.name) with
  | some registered => .error (.duplicateRule rule.name registered.typeName rule.typeName)
  | none => .ok ⟨catalog.rules ++ [rule]⟩

end Catalog

end JavaLint
