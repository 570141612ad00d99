import JavaLint.Syntax.Node
import JavaLint.Text.Blank

/-!
# Suppression in source

A declaration annotated with `@SuppressWarnings` is a scope that suppresses the rules named by the string
literals of the annotation. A candidate is suppressed if its node lies within the span of a scope that
names its rule or everything.
-/

namespace JavaLint

/-- An annotated declaration and the names in its annotations. -/
structure SuppressionScope where
  declaration : Node
  names : List String
  deriving Repr

namespace SuppressionScope

/-- The names that suppress every rule. -/
def everything : List String := ["all", "sift"]

/-- The names of the annotation. -/
def annotationNames : List String := ["SuppressWarnings", "java.lang.SuppressWarnings"]

/-- The kinds of annotations. -/
def annotationKinds : List String := ["annotation", "marker_annotation"]

/-- The texts of the string literals among the arguments of an annotation, without quotes. -/
def annotationValues (source : Bytes) (marker : Node) : List String :=
  match marker.child? "arguments" with
  | none => []
  | some arguments =>
    (arguments.walk.filter (·.kind == "string_literal")).map fun literal =>
      Text.trimQuotes (Text.trim (literal.text source))

/-- The names suppressed by the annotations among some modifiers. -/
def suppressedNames (source : Bytes) (modifiers : Node) : List String :=
  ((modifiers.childrenOfKind annotationKinds).filter fun marker =>
    (marker.child? "name").any fun name => annotationNames.contains (name.text source)).flatMap
      (annotationValues source)

/-- The scopes that a node opens, one for each of its modifier lists that names something. -/
def ofNode (source : Bytes) (declaration : Node) : List SuppressionScope :=
  (declaration.childrenOfKind ["modifiers"]).filterMap fun modifiers =>
    let names := suppressedNames source modifiers
    if names.isEmpty then none else some ⟨declaration, names⟩

/-- The scopes of a tree, in document order. -/
def find (source : Bytes) (root : Node) : List SuppressionScope :=
  root.walk.flatMap (ofNode source)

/-- The scope names the rule, or everything. -/
def covers (scope : SuppressionScope) (rule : String) : Bool :=
  scope.names.contains rule || scope.names.any everything.contains

/-- A candidate of the rule at the node is suppressed by one of the scopes. A candidate without a node
    never is. -/
def suppresses (scopes : List SuppressionScope) (rule : String) (node : Option Node) : Bool :=
  node.any fun node => scopes.any fun scope => scope.covers rule && scope.declaration.contains node

end SuppressionScope

end JavaLint
