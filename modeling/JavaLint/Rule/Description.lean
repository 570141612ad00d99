import JavaLint.Setting.Basic

/-!
# Descriptions of rules

A report describes each rule that found something: by the rule's own description, else by the bundle's
text for its name, else by a sentence that only names it.
-/

namespace JavaLint

/-- Descriptions by rule name. -/
abbrev Bundle := List (String × String)

namespace Bundle

/-- The descriptions of the shipped rules. -/
def shipped : Bundle := [
  ("BooleanMethodReturnsNull",
    "Method with Boolean return type returns explicit null. A method that returns either " ++
    "Boolean.TRUE, Boolean.FALSE or null is an accident waiting to happen: a caller may " ++
    "treat the result as a primitive boolean, and unboxing null throws a NullPointerException."),
  ("ReturnFromFinallyBlock",
    "Returning from a finally block is confusing and can hide the original exception."),
  ("ThrowExceptionFromFinallyBlock",
    "Throwing an exception from a finally block is confusing and can hide the original exception."),
  ("DuplicateImport", "Duplicate import statements are unnecessary."),
  ("UnnecessaryBooleanInstantiation",
    "Use Boolean.valueOf() for variable values or Boolean.TRUE and Boolean.FALSE for constant " ++
    "values instead of calling the Boolean() constructor directly or calling " ++
    "Boolean.valueOf(true) or Boolean.valueOf(false)."),
  ("ParseFailure", "The source file could not be parsed, so no other rule was applied to it.")]

/-- The bundle's text for a name, if it has one that is not empty. -/
def find? (bundle : Bundle) (name : String) : Option String :=
  (bundle.lookup name).filter (!·.isEmpty)

/-- The sentence for a rule without any description. -/
def fallback (name : String) : String :=
  s!"No description provided for rule named [{name}]"

/-- The description of a rule: `explicit` if it is set, else the bundle's text, else the fallback. Without
    a bundle the shipped one is used. -/
def describe (bundle : Option Bundle) (name : String) (explicit : Setting) : Setting :=
  if explicit.isSet then explicit
  else .text (((bundle.getD shipped).find? name).getD (fallback name))

end Bundle

end JavaLint
