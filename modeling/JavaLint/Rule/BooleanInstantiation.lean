import JavaLint.Rule.BooleanReturnsNull

/-!
# Unnecessary boolean objects

There is no need to create a boxed boolean, nor to ask for the box of a literal: both values exist as
constants.
-/

namespace JavaLint.BooleanInstantiation

/-- The literal that is the only argument of a call. -/
def literalArgument? (call : Node) : Option Node :=
  match (call.child? "arguments").map (·.children) with
  | some [argument] => if ["true", "false"].contains argument.kind then some argument else none
  | _ => none

/-- The call asks the boxed type for the box of a value. -/
def isBoxing (source : Bytes) (call : Node) : Bool :=
  (call.child? "name").any (·.text source == "valueOf") &&
    BooleanReturnsNull.isBoxedType source (call.child? "object")

/-- The message for the box of a literal. -/
def boxingMessage (literal : String) : String :=
  let constant := if literal == "true" then "TRUE" else "FALSE"
  s!"Call to Boolean.valueOf({literal}) can be replaced by Boolean.{constant}"

/-- The message for a created object. -/
def creationMessage : String := "There is typically no need to instantiate Boolean instances"

/-- The response of the rule to a node. -/
def respond (source : Bytes) (n : Node) : Response :=
  if n.kind == "object_creation_expression" then
    if BooleanReturnsNull.isBoxedType source (n.child? "type") then
      .found [⟨some n, some creationMessage⟩]
    else .pass
  else if n.kind == "method_invocation" then
    match literalArgument? n with
    | some literal =>
      if isBoxing source n then .found [⟨some n, some (boxingMessage literal.kind)⟩] else .pass
    | none => .pass
  else .pass

end JavaLint.BooleanInstantiation
