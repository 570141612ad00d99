import JavaLint.Rule.Visit
import JavaLint.Syntax.ExitPoints
import JavaLint.Text.Blank

/-!
# Boolean callables that return null

A method or lambda whose exits yield a boolean value must not also return null: a caller may treat the
result as a primitive, and unboxing null fails. A method is boolean by its declared type or because one
of its own exits is a boolean expression; a lambda only by its exits.
-/

namespace JavaLint.BooleanReturnsNull

/-- The names of the boolean types. -/
def booleanTypes : List String := ["boolean", "Boolean", "java.lang.Boolean"]

/-- The names of the boxed boolean type. -/
def boxedTypes : List String := ["Boolean", "java.lang.Boolean"]

/-- The constants of the boxed boolean type. -/
def constants : List String :=
  ["Boolean.TRUE", "Boolean.FALSE", "java.lang.Boolean.TRUE", "java.lang.Boolean.FALSE"]

/-- The binary operators whose result is boolean. -/
def booleanOperators : List String := ["==", "!=", "<", ">", "<=", ">=", "&&", "||"]

/-- The node's text without blanks is one of the given names. -/
def isNamed (source : Bytes) (names : List String) (n : Node) : Bool :=
  names.contains (Text.compact (n.text source))

/-- The node names a boolean type. -/
def isBooleanType (source : Bytes) (type : Option Node) : Bool :=
  type.any (isNamed source booleanTypes)

/-- The node names the boxed boolean type. -/
def isBoxedType (source : Bytes) (type : Option Node) : Bool :=
  type.any (isNamed source boxedTypes)

/-- The expression, parentheses aside, is boolean whatever its operands are: a literal or constant, a
    comparison, a negation, a type test or a cast. -/
def isBooleanExpression (source : Bytes) (expression : Node) : Bool :=
  let e := expression.unwrapParentheses
  match e.kind with
  | "true" | "false" | "instanceof_expression" => true
  | "field_access" => isNamed source constants e
  | "binary_expression" => (e.child? "operator").any (booleanOperators.contains ·.kind)
  | "unary_expression" => (e.child? "operator").any (·.kind == "!")
  | "cast_expression" => isBooleanType source (e.child? "type")
  | _ => false

mutual

/-- The expression is the null literal inside any number of parentheses and casts. -/
def isNullProducing : Node → Bool
  | ⟨kind, _, _, _, children⟩ =>
    if kind == "parenthesized_expression" then
      match children with
      | [] => false
      | inner :: _ => isNullProducing inner
    else if kind == "null_literal" then true
    else if kind == "cast_expression" then isNullValue children
    else false

/-- The first of these children that is the operand of a cast produces null. -/
def isNullValue : List Node → Bool
  | [] => false
  | child :: rest => if child.role == some "value" then isNullProducing child else isNullValue rest

end

/-- Leaving with this value returns null: no value, the null literal, or null cast to the boxed type. -/
def isNullReturn (source : Bytes) : Option Node → Bool
  | none => true
  | some value =>
    let e := value.unwrapParentheses
    e.kind == "null_literal" ||
      (e.kind == "cast_expression" && isBoxedType source (e.child? "type") &&
        (e.child? "value").any isNullProducing)

/-- The exits of a callable; a callable without a body has none. -/
def exits (callable : Node) : List (Node × Option Node) :=
  match callable.child? "body" with
  | some body => body.exitPoints
  | none => []

/-- Some exit yields a boolean expression. -/
def anyBoolean (source : Bytes) (exits : List (Node × Option Node)) : Bool :=
  exits.any fun (_, value) => value.any (isBooleanExpression source)

/-- A finding with the given message at every exit that returns null. -/
def nullReturns (source : Bytes) (message : String) (exits : List (Node × Option Node)) : List Finding :=
  (exits.filter fun (_, value) => isNullReturn source value).map fun (statement, _) =>
    ⟨some statement, some message⟩

/-- The message for a method. -/
def methodMessage (source : Bytes) (method : Node) : String :=
  let name := match method.child? "name" with
    | some name => name.text source
    | none => "<unknown>"
  s!"Method {name} returns a boolean value but can also return null"

/-- The message for a lambda. -/
def lambdaMessage : String := "Lambda expression returns a boolean value but can also return null"

/-- The response of the rule to a node. -/
def respond (source : Bytes) (n : Node) : Response :=
  if n.kind == "method_declaration" then
    if isBooleanType source (n.child? "type") || anyBoolean source (exits n) then
      .found (nullReturns source (methodMessage source n) (exits n))
    else .pass
  else if n.kind == "lambda_expression" then
    if anyBoolean source (exits n) then .found (nullReturns source lambdaMessage (exits n)) else .pass
  else .pass

end JavaLint.BooleanReturnsNull
