import JavaLint.Syntax.Node

/-!
# Visiting a syntax tree

A rule answers each node it meets with a response: what it found there, whether it failed, and whether
the visit goes on below the node. The visit meets the nodes in document order and ends at the first
failure.
-/

namespace JavaLint

/-- Something a rule found: at a node, or in the file as a whole. -/
structure Finding where
  node? : Option Node
  message : Option String
  deriving Repr

/-- A rule that failed while it visited, with the message it failed with. -/
structure VisitFault where
  message : Option String
  deriving DecidableEq, Repr

/-- What a visit found, and the failure that ended it. -/
structure Scan where
  findings : List Finding
  fault : Option VisitFault
  deriving Repr

namespace Scan

/-- The visit of nothing. -/
def empty : Scan := ⟨[], none⟩

/-- One visit after another; a failure ends the visit. -/
def andThen (first second : Scan) : Scan :=
  match first.fault with
  | some _ => first
  | none => ⟨first.findings ++ second.findings, second.fault⟩

/-- Nothing comes after. -/
theorem andThen_empty (scan : Scan) : scan.andThen empty = scan := by
  obtain ⟨findings, fault⟩ := scan
  cases fault with
  | none => simp [andThen, empty]
  | some _ => rfl

/-- It does not matter how a row of visits is bracketed. -/
theorem andThen_assoc (a b c : Scan) : (a.andThen b).andThen c = a.andThen (b.andThen c) := by
  obtain ⟨findings, fault⟩ := a
  obtain ⟨findings', fault'⟩ := b
  cases fault with
  | none =>
    cases fault' with
    | none => simp [andThen]
    | some _ => rfl
  | some _ => rfl

end Scan

/-- A rule's answer to one node. -/
structure Response where
  scan : Scan
  descends : Bool
  deriving Repr

namespace Response

/-- Nothing is found here, and the visit goes on below. -/
def pass : Response := ⟨.empty, true⟩

/-- These are found here, and the visit goes on below. -/
def found (findings : List Finding) : Response := ⟨⟨findings, none⟩, true⟩

end Response

namespace Node

mutual

/-- Visits a tree with the responses of a rule. -/
def visit (respond : Node → Response) : Node → Scan
  | n@⟨_, _, _, _, children⟩ =>
    let response := respond n
    if response.descends then response.scan.andThen (visitAll respond children) else response.scan

/-- Visits a list of trees, tree by tree. -/
def visitAll (respond : Node → Response) : List Node → Scan
  | [] => .empty
  | child :: rest => (child.visit respond).andThen (visitAll respond rest)

end

end Node

end JavaLint
