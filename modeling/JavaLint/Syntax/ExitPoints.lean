import JavaLint.Syntax.Node

/-!
# Exit points of a body

Rules about how control leaves a piece of code look for statements inside one body only: the search does
not enter nodes of a boundary kind, so that a nested callable is examined on its own.
-/

namespace JavaLint.Node

/-- The kinds that open a callable, or a body with callables, of their own. -/
def nestedCallableKinds : List String :=
  ["lambda_expression", "class_body", "interface_body", "enum_body", "method_declaration",
    "constructor_declaration"]

mutual

/-- The nodes of the given kinds below a node, in document order. A node of a boundary kind may be found
    itself, but nothing below it is. -/
def collect (kinds boundary : List String) : Node → List Node
  | ⟨_, _, _, _, children⟩ => collectIn kinds boundary children

/-- The nodes found at and below a list of children. -/
def collectIn (kinds boundary : List String) : List Node → List Node
  | [] => []
  | child :: rest =>
    (if kinds.contains child.kind then [child] else []) ++
      (if boundary.contains child.kind then [] else child.collect kinds boundary) ++
        collectIn kinds boundary rest

end

/-- The return statements of a body, those of nested callables left out. -/
def returns (body : Node) : List Node :=
  body.collect ["return_statement"] nestedCallableKinds

/-- The statements by which control leaves the body of a callable, each with the value it returns. A body
    that is not a block is an expression and its own only exit. -/
def exitPoints (body : Node) : List (Node × Option Node) :=
  if body.kind == "block" then body.returns.map fun statement => (statement, statement.children.head?)
  else [(body, some body)]

end JavaLint.Node
