import JavaLint.Rule.Detector
import JavaLint.Rule.Property
import JavaLint.SourceUnit
import JavaLint.Wildcard

/-!
# Rules

A rule is a detector under a name, with properties. Validation checks the priority and the filters; the
filters decide which source units the rule runs on.
-/

namespace JavaLint

/-- A rule. `typeName` is the name of its kind, which several rules may share. -/
structure Rule where
  typeName : String
  name : String
  detector : Detector
  properties : Properties
  deriving Repr

namespace Rule

/-- The most severe priority. -/
def minPriority : Int := 1

/-- The least severe priority. -/
def maxPriority : Int := 4

/-- The least severe priority that reports show if none is asked for. -/
def defaultMaxPriority : Int := 3

/-- All priorities, the most severe first. -/
def priorities : List Int := [1, 2, 3, 4]

/-- The priority of a rule, as it was set. -/
def priority (rule : Rule) : Setting :=
  rule.properties.priority

/-- The rule takes part in an analysis. -/
def isEnabled (rule : Rule) : Bool :=
  rule.properties.enabled.isSet

/-- How a rule is shown. -/
def display (rule : Rule) : String :=
  s!"{rule.typeName}(name={Text.quoted rule.name}, priority={rule.priority.display})"

/-- Gives properties their values one after another; the first key that is no property is the error. -/
def withProperties (rule : Rule) : List (String × Setting) → Except ConfigError Rule
  | [] => .ok rule
  | (key, value) :: rest =>
    match Property.ofKey? key with
    | none => .error (.unknownProperty key rule.name)
    | some property =>
      withProperties { rule with properties := rule.properties.set property value } rest

/-- The priority is an integer from one to four. -/
def checkPriority (rule : Rule) : Except ConfigError Unit :=
  match rule.priority with
  | .int value =>
    if minPriority ≤ value ∧ value ≤ maxPriority then .ok ()
    else .error (.priorityOutOfRange rule.name value)
  | other => .error (.priorityNotInteger rule.name other)

/-- The filter is absent or a well-formed list of wildcards. -/
def checkFilter (rule : Rule) (which : Filter) : Except ConfigError Unit :=
  match rule.properties.getFilter which with
  | .null => .ok ()
  | value => (WildcardList.ofSetting value).map fun _ => ()

/-- Checks the priority and then the filters in order. -/
def validate (rule : Rule) : Except ConfigError Unit := do
  rule.checkPriority
  Filter.all.forM rule.checkFilter

/-- What a list of file wildcards is matched against: the whole path if the list names a directory
    anywhere, otherwise the file name. -/
def fileSubject (list : WildcardList) (u : SourceUnit) : String :=
  if list.text.toList.contains '/' then u.path else u.fileName

/-- Some entry of a file filter matches the unit. -/
def matchesFile (value : Setting) (u : SourceUnit) : Except ConfigError Bool :=
  (WildcardList.ofSetting value).map fun list => list.isMatch (fileSubject list u)

/-- Some entry of a class filter matches one of the type names. -/
def matchesType (value : Setting) (types : List String) : Except ConfigError Bool :=
  (WildcardList.ofSetting value).map fun list => list.matchesAny types

/-- A filter that is not set lets everything pass; a set one is asked. -/
def passes (value : Setting) (expected : Bool) (isMatch : Setting → Except ConfigError Bool) :
    Except ConfigError Bool :=
  if value.isSet then (isMatch value).map (· == expected) else .ok true

/-- The filters in order, up to the first that does not let the unit pass. -/
def allPass : List (Except ConfigError Bool) → Except ConfigError Bool
  | [] => .ok true
  | .ok true :: rest => allPass rest
  | .ok false :: _ => .ok false
  | .error e :: _ => .error e

/-- The rule runs on the unit. A unit without a declared type passes every class filter. -/
def appliesTo (rule : Rule) (u : SourceUnit) : Except ConfigError Bool :=
  let p := rule.properties
  let byFile := [passes p.onlyFiles true (matchesFile · u), passes p.skipFiles false (matchesFile · u)]
  match u.primaryType? with
  | none => allPass byFile
  | some type =>
    let types := type :: u.qualifiedType?.toList
    allPass (byFile ++
      [passes p.onlyClasses true (matchesType · types), passes p.skipClasses false (matchesType · types)])

/-- What the rule finds in a unit. -/
def scan (rule : Rule) (u : SourceUnit) : Scan :=
  u.root.visit (rule.detector.respond u.source)

end Rule

end JavaLint
