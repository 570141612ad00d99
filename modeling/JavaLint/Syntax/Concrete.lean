/-!
# Concrete syntax trees

The tree that the grammar's parser builds for a source: every token is a node, and places where the
source does not fit the grammar are marked.
-/

namespace JavaLint

/-- Where a node stands in its source. Bytes, rows and columns are counted from zero; the end is the
    first position after the node. -/
structure Span where
  startByte : Nat
  endByte : Nat
  startRow : Nat
  startColumn : Nat
  endRow : Nat
  endColumn : Nat
  deriving DecidableEq, Repr, Inhabited

/-- `outer` starts no later and ends no earlier than `inner`. -/
def Span.contains (outer inner : Span) : Bool :=
  outer.startByte ≤ inner.startByte && inner.endByte ≤ outer.endByte

/-- A node of a concrete syntax tree. `field` is the field of its parent that it fills. A missing node
    was inserted by the parser; `hasError` marks a node with a fault somewhere below it. -/
structure Concrete where
  kind : String
  field : Option String
  named : Bool
  missing : Bool
  hasError : Bool
  span : Span
  children : List Concrete
  deriving Repr, Inhabited

namespace Concrete

/-- The node itself is a place where the source does not fit the grammar. -/
def isFault (n : Concrete) : Bool :=
  n.kind == "ERROR" || n.missing

mutual

/-- The line, counted from one, of the first fault in a tree, and none for a clean tree. A node that is
    marked but holds no fault stands for it. -/
def firstErrorLine : Concrete → Option Nat
  | n@⟨_, _, _, _, hasError, span, children⟩ =>
    if n.isFault then some (span.startRow + 1)
    else if hasError then (firstErrorLineIn children).or (some (span.startRow + 1))
    else none

/-- The line of the first fault in a list of trees. -/
def firstErrorLineIn : List Concrete → Option Nat
  | [] => none
  | child :: rest => child.firstErrorLine.or (firstErrorLineIn rest)

end

mutual

/-- The nodes of a tree, each before its children. -/
def walk : Concrete → List Concrete
  | n@⟨_, _, _, _, _, _, children⟩ => n :: walkAll children

/-- The nodes of a list of trees, tree by tree. -/
def walkAll : List Concrete → List Concrete
  | [] => []
  | child :: rest => child.walk ++ walkAll rest

end

/-- A node comes first in its tree, and then the trees of its children. -/
theorem walk_eq (n : Concrete) : n.walk = n :: walkAll n.children := by
  cases n
  rw [walk]

/-- The walk of a list of trees is the walks of the trees. -/
theorem walkAll_eq_flatMap (nodes : List Concrete) : walkAll nodes = nodes.flatMap walk := by
  induction nodes with
  | nil => rfl
  | cons n rest ih => rw [walkAll, List.flatMap_cons, ih]

end Concrete

end JavaLint
