import JavaLint.Rule.Visit
import JavaLint.Syntax.ExitPoints

/-!
# Exits from finally blocks

A statement that leaves a finally block discards the exception that is being handled. A finally clause
nested in another reports its own statements, so each is found once.
-/

namespace JavaLint

/-- The ways of leaving a finally block that are looked for. -/
inductive FinallyExit where
  | byReturn
  | byThrow
  deriving DecidableEq, Repr

namespace FinallyExit

/-- The kind of statement that leaves the block. -/
def statementKind : FinallyExit → String
  | .byReturn => "return_statement"
  | .byThrow => "throw_statement"

/-- The message of a finding. -/
def message : FinallyExit → String
  | .byReturn => "finally block contains a return statement"
  | .byThrow => "finally block throws an exception"

/-- The kinds that the search inside a finally block does not enter. -/
def boundaryKinds : List String := Node.nestedCallableKinds ++ ["finally_clause"]

/-- The statements by which a finally clause is left. -/
def statements (exit : FinallyExit) (clause : Node) : List Node :=
  (clause.childrenOfKind ["block"]).flatMap (·.collect [exit.statementKind] boundaryKinds)

/-- The response of the rule to a node. -/
def respond (exit : FinallyExit) (n : Node) : Response :=
  if n.kind == "finally_clause" then
    .found ((exit.statements n).map fun statement => ⟨some statement, some exit.message⟩)
  else .pass

end FinallyExit

end JavaLint
