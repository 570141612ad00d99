import JavaLint.Syntax.Concrete
import JavaLint.Text.Utf8

/-!
# Syntax nodes

The tree that rules look at. It keeps the nodes that are named or fill a field, without comments, and
gives each its place: the child indices that lead to it from the root.
-/

namespace JavaLint

/-- A node of the syntax tree of a source. `role` is the field of its parent that it fills, and `place`
    tells it from every other node of its tree. -/
structure Node where
  kind : String
  role : Option String
  span : Span
  place : List Nat
  children : List Node
  deriving Repr

namespace Node

/-- The line that a node starts in, counted from one. -/
def line (n : Node) : Nat :=
  n.span.startRow + 1

/-- The text of a node in its source. -/
def text (source : Bytes) (n : Node) : String :=
  Utf8.decodeReplacing ((source.drop n.span.startByte).take (n.span.endByte - n.span.startByte))

/-- The first child that fills the given field. -/
def child? (n : Node) (role : String) : Option Node :=
  n.children.find? (·.role == some role)

/-- The children of one of the given kinds. -/
def childrenOfKind (n : Node) (kinds : List String) : List Node :=
  n.children.filter (kinds.contains ·.kind)

/-- The span of `other` lies within that of `n`. -/
def contains (n other : Node) : Bool :=
  n.span.contains other.span

mutual

/-- The nodes of a tree in document order: each node before its children. -/
def walk : Node → List Node
  | n@⟨_, _, _, _, children⟩ => n :: walkAll children

/-- The nodes of a list of trees, tree by tree. -/
def walkAll : List Node → List Node
  | [] => []
  | child :: rest => child.walk ++ walkAll rest

end

/-- A node comes first in its tree, and then the trees of its children. -/
theorem walk_eq (n : Node) : n.walk = n :: walkAll n.children := by
  cases n
  rw [walk]

/-- The walk of a list of trees is the walks of the trees. -/
theorem walkAll_eq_flatMap (nodes : List Node) : walkAll nodes = nodes.flatMap walk := by
  induction nodes with
  | nil => rfl
  | cons n rest ih => rw [walkAll, List.flatMap_cons, ih]

/-- The expression inside any number of parentheses. -/
def unwrapParentheses : Node → Node
  | n@⟨_, _, _, _, []⟩ => n
  | n@⟨kind, _, _, _, inner :: _⟩ =>
    if kind == "parenthesized_expression" then inner.unwrapParentheses else n

/-- The kinds of comments, which may stand anywhere and are no part of the tree. -/
def commentKinds : List String := ["line_comment", "block_comment", "comment"]

/-- The concrete node has a place in the syntax tree. -/
def isModelled (c : Concrete) : Bool :=
  (c.named || c.field.isSome) && !commentKinds.contains c.kind

mutual

/-- The syntax node of a concrete node, with the given role and place. -/
def ofConcreteAt (role : Option String) (place : List Nat) : Concrete → Node
  | ⟨kind, _, _, _, _, span, children⟩ => ⟨kind, role, span, place, ofConcreteList place 0 children⟩

/-- The syntax nodes of a list of concrete children; the first one kept has the given index. -/
def ofConcreteList (place : List Nat) (index : Nat) : List Concrete → List Node
  | [] => []
  | child :: rest =>
    if isModelled child then
      ofConcreteAt child.field (place ++ [index]) child :: ofConcreteList place (index + 1) rest
    else ofConcreteList place index rest

end

/-- The syntax tree of a concrete tree. -/
def ofConcrete (root : Concrete) : Node :=
  ofConcreteAt none [] root

end Node

end JavaLint
