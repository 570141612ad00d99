import JavaLint.Proofs.Syntax.Spans
import Mathlib.Logic.Relation

/-!
# What the syntax tree keeps of a concrete tree

The syntax tree leaves out comments and the tokens that are neither named nor in a field, each with all that is
below it. Everything else is kept: in document order, with its kind and position, and with the field it fills as its
role.

- `Concrete.withAbove`: the nodes of a tree in document order, each with the nodes above it
- `Concrete.keptHeadings_eq`: what is kept, level by level
- `Node.map_heading_walk_ofConcreteAt`: the nodes of the syntax tree are those that are kept
- `Concrete.Gains`, `Concrete.Gains.ofConcreteAt_eq`: a comment or token more does not change the syntax tree
- `Node.ofConcrete_keeps`: all of it together, and that spans in order stay in order
-/

namespace JavaLint

namespace Concrete

/-! ## Nodes that are kept -/

/-- The node is no comment, and it is named or fills a field. -/
def IsPart (c : Concrete) : Prop :=
  c.kind ∉ ["line_comment", "block_comment", "comment"] ∧ (c.named = true ∨ c.field ≠ none)

instance (c : Concrete) : Decidable c.IsPart :=
  inferInstanceAs (Decidable (_ ∧ _))

/-- The children that rules look at are those that are part of the model. -/
private theorem isModelled_iff {c : Concrete} : Node.isModelled c = true ↔ c.IsPart := by
  simp [Node.isModelled, Node.commentKinds, IsPart, Option.isSome_iff_ne_none, and_comm]

mutual

/-- The nodes of a tree, each before its children, with the nodes above it from the root down. -/
def withAbove : Concrete → List (List Concrete × Concrete)
  | c@⟨_, _, _, _, _, _, children⟩ =>
    ([], c) :: (withAboveAll children).map fun (above, n) => (c :: above, n)

/-- The nodes of a list of trees, tree by tree. -/
def withAboveAll : List Concrete → List (List Concrete × Concrete)
  | [] => []
  | child :: rest => child.withAbove ++ withAboveAll rest

end

/-- A list of trees is gone through one tree after the other. -/
private theorem withAboveAll_eq_flatMap (nodes : List Concrete) : withAboveAll nodes = nodes.flatMap withAbove := by
  induction nodes with
  | nil => rfl
  | cons c rest ih => rw [withAboveAll, List.flatMap_cons, ih]

/-- The root stands above all nodes of its children, and nothing above it. -/
private theorem withAbove_eq (c : Concrete) :
    c.withAbove = ([], c) :: c.children.flatMap fun child =>
      child.withAbove.map fun (above, n) => (c :: above, n) := by
  rw [← List.map_flatMap, ← withAboveAll_eq_flatMap]
  cases c
  rw [withAbove]

/-- They are the nodes of the tree in document order. -/
private theorem map_snd_withAbove (c : Concrete) : c.withAbove.map Prod.snd = c.walk := by
  induction c using Concrete.induction with
  | step c ih =>
    rw [withAbove_eq, walk_eq, walkAll_eq_flatMap, List.map_cons, List.map_flatMap]
    refine congrArg _ (List.flatMap_congr fun child hchild => ?_)
    -- what is put above a node does not change the node
    rw [List.map_map, ← ih child hchild]
    rfl

/-- The first node above any other node is the root. -/
private theorem eq_or_of_mem_withAbove {c n : Concrete} {above : List Concrete} (h : (above, n) ∈ c.withAbove) :
    (above = [] ∧ n = c) ∨ ∃ below, above = c :: below := by
  rw [withAbove_eq, List.mem_cons, List.mem_flatMap] at h
  rcases h with h | ⟨child, -, h⟩
  · exact .inl (Prod.mk.inj h)
  · obtain ⟨⟨below, m⟩, -, h⟩ := List.mem_map.1 h
    exact .inr ⟨below, (Prod.mk.inj h).1.symm⟩

/-- The root is kept. Any other node is kept if it is part of the model and so are the nodes above it, the root
    apart. -/
def IsKept : List Concrete × Concrete → Prop
  | ([], _) => True
  | (_ :: above, c) => c.IsPart ∧ ∀ a ∈ above, a.IsPart

instance : DecidablePred IsKept
  | ([], _) => inferInstanceAs (Decidable True)
  | (_ :: _, _) => inferInstanceAs (Decidable (_ ∧ _))

/-- Below a child a node is kept if the child is, and if it would be kept in the tree of the child. -/
private theorem isKept_cons_iff {c child : Concrete} {entry : List Concrete × Concrete}
    (h : entry ∈ child.withAbove) : IsKept (c :: entry.1, entry.2) ↔ child.IsPart ∧ IsKept entry := by
  obtain ⟨above, n⟩ := entry
  -- the child itself has the root above it, and nothing in between
  obtain ⟨rfl, rfl⟩ | ⟨below, rfl⟩ := eq_or_of_mem_withAbove h
  · simp [IsKept]
  · simp only [IsKept, List.forall_mem_cons]
    exact and_left_comm

end Concrete

/-! ## Nodes and what they show -/

/-- What a node shows of itself. Lines and columns are counted from one. -/
structure Heading where
  kind : String
  role : Option String
  line : Nat
  column : Nat
  endLine : Nat
  endColumn : Nat
  startByte : Nat
  endByte : Nat
  deriving DecidableEq, Repr

/-- The heading of a syntax node. -/
def Node.heading (n : Node) : Heading :=
  ⟨n.kind, n.role, n.line, n.span.startColumn + 1, n.span.endRow + 1, n.span.endColumn + 1,
    n.span.startByte, n.span.endByte⟩

namespace Concrete

/-- The heading that a concrete node has in a given role. -/
def heading (role : Option String) (c : Concrete) : Heading :=
  ⟨c.kind, role, c.span.startRow + 1, c.span.startColumn + 1, c.span.endRow + 1, c.span.endColumn + 1,
    c.span.startByte, c.span.endByte⟩

/-- The heading of a node in its tree: the root has the given role, and every other node its field. -/
def headingBelow (role : Option String) : List Concrete × Concrete → Heading
  | ([], c) => c.heading role
  | (_ :: _, c) => c.heading c.field

/-- A node below a child is shown as in the tree of the child, if the child is shown with its field. -/
private theorem headingBelow_cons {role : Option String} {c child : Concrete} {entry : List Concrete × Concrete}
    (h : entry ∈ child.withAbove) :
    headingBelow role (c :: entry.1, entry.2) = headingBelow child.field entry := by
  obtain ⟨above, n⟩ := entry
  obtain ⟨rfl, rfl⟩ | ⟨below, rfl⟩ := eq_or_of_mem_withAbove h <;> rfl

/-- The headings of the nodes that are kept. -/
def keptHeadings (role : Option String) (c : Concrete) : List Heading :=
  (c.withAbove.filter (IsKept ·)).map (headingBelow role)

/-- What is kept of a child is what is kept of its own tree, with its field as its role. -/
private theorem map_headingBelow_child (role : Option String) (c child : Concrete) :
    ((child.withAbove.map fun (above, n) => (c :: above, n)).filter (IsKept ·)).map (headingBelow role) =
      if child.IsPart then child.keptHeadings child.field else [] := by
  rw [List.filter_map, List.map_map]
  split
  · next hpart =>
    -- the child is kept, so what is kept below it is decided in its own tree
    have hkept : child.withAbove.filter
          ((fun entry => decide (IsKept entry)) ∘ fun (above, n) => (c :: above, n)) =
        child.withAbove.filter (IsKept ·) := by
      refine List.filter_congr fun entry hentry => ?_
      simp [isKept_cons_iff hentry, hpart]
    rw [hkept]
    exact List.map_congr_left fun entry hentry => headingBelow_cons (List.mem_filter.1 hentry).1
  · next hpart =>
    -- with the child everything below it goes
    rw [List.map_eq_nil_iff, List.filter_eq_nil_iff]
    intro entry hentry
    simp [isKept_cons_iff hentry, hpart]

/-- The root is kept, and of each child that is part of the model what is kept of its own tree. -/
theorem keptHeadings_eq (role : Option String) (c : Concrete) :
    c.keptHeadings role = c.heading role ::
      c.children.flatMap fun child => if child.IsPart then child.keptHeadings child.field else [] := by
  have hroot : decide (IsKept ([], c)) = true := decide_eq_true trivial
  rw [keptHeadings, withAbove_eq, List.filter_cons, if_pos hroot, List.map_cons, List.filter_flatMap,
    List.map_flatMap]
  exact congrArg _ (List.flatMap_congr fun child _ => map_headingBelow_child role c child)

end Concrete

namespace Node

/-- A syntax node shows what its concrete node shows, in the role it was given. -/
private theorem heading_ofConcreteAt (role : Option String) (place : List Nat) (c : Concrete) :
    (ofConcreteAt role place c).heading = c.heading role := by
  cases c
  rfl

/-- If each child becomes a tree of the nodes that are kept of it, so does a list of children. -/
private theorem map_heading_ofConcreteList {children : List Concrete}
    (h : ∀ child ∈ children, ∀ role place,
      (ofConcreteAt role place child).walk.map heading = child.keptHeadings role)
    (place : List Nat) (index : Nat) :
    ((ofConcreteList place index children).flatMap walk).map heading =
      children.flatMap fun child => if child.IsPart then child.keptHeadings child.field else [] := by
  -- for any index, as a child that is left out does not count
  induction children generalizing index with
  | nil => rfl
  | cons child rest ih =>
    obtain ⟨hchild, hrest⟩ := List.forall_mem_cons.1 h
    rw [ofConcreteList, List.flatMap_cons]
    by_cases hpart : child.IsPart
    · rw [if_pos (Concrete.isModelled_iff.2 hpart), if_pos hpart, List.flatMap_cons, List.map_append, hchild,
        ih hrest]
    · rw [if_neg (Concrete.isModelled_iff.not.2 hpart), if_neg hpart, List.nil_append, ih hrest]

/-- The nodes of a syntax tree are those that are kept of the concrete tree. -/
theorem map_heading_walk_ofConcreteAt (role : Option String) (place : List Nat) (c : Concrete) :
    (ofConcreteAt role place c).walk.map heading = c.keptHeadings role := by
  -- for any role, as a child has its field where the root of the whole tree has none
  induction c using Concrete.induction generalizing role place with
  | step c ih =>
    rw [walk_eq, (children_ofConcreteAt role place c).2, walkAll_eq_flatMap, List.map_cons,
      heading_ofConcreteAt, map_heading_ofConcreteList ih, Concrete.keptHeadings_eq]

end Node

/-! ## Comments and tokens -/

/-- One node more stands among the children of some node of the tree: a comment, or an unnamed node that fills no
    field. -/
inductive Concrete.Gains : Concrete → Concrete → Prop where
  | here (c : Concrete) (before after : List Concrete) {extra : Concrete}
      (h : extra.kind ∈ ["line_comment", "block_comment", "comment"] ∨
        (extra.named = false ∧ extra.field = none)) :
      Gains { c with children := before ++ after } { c with children := before ++ extra :: after }
  | within (c : Concrete) (before after : List Concrete) {child grown : Concrete} (h : Gains child grown) :
      Gains { c with children := before ++ child :: after } { c with children := before ++ grown :: after }

namespace Concrete.Gains

/-- Only the lists of children change. -/
private theorem root_eq {tree grown : Concrete} (h : Gains tree grown) :
    Node.isModelled grown = Node.isModelled tree ∧ grown.field = tree.field := by
  cases h <;> exact ⟨rfl, rfl⟩

/-- A node more that is left out changes nothing, however deep in the tree it stands. -/
theorem ofConcreteAt_eq {tree grown : Concrete} (h : Gains tree grown) (role : Option String)
    (place : List Nat) : Node.ofConcreteAt role place grown = Node.ofConcreteAt role place tree := by
  induction h generalizing role place with
  | @here c before after extra h =>
    -- the node more is left out, and it does not count for the index of those behind it
    have hextra : ¬ Node.isModelled extra = true := by
      rw [isModelled_iff, IsPart]
      rcases h with hkind | ⟨hnamed, hfield⟩
      · exact fun hpart => hpart.1 hkind
      · simp [hnamed, hfield]
    rw [Node.ofConcreteAt, Node.ofConcreteAt, Node.ofConcreteList_append, Node.ofConcreteList_append,
      Node.ofConcreteList, if_neg hextra]
  | @within c before after child grown h ih =>
    -- the child is kept or left out as before, and keeps its place
    rw [Node.ofConcreteAt, Node.ofConcreteAt, Node.ofConcreteList_append, Node.ofConcreteList_append,
      Node.ofConcreteList, Node.ofConcreteList, h.root_eq.1, h.root_eq.2, ih]

end Concrete.Gains

/-- Any number of such nodes changes nothing. -/
private theorem Node.ofConcrete_eq_of_gains {tree grown : Concrete}
    (h : Relation.ReflTransGen Concrete.Gains tree grown) : ofConcrete grown = ofConcrete tree := by
  induction h with
  | refl => rfl
  | tail _ hlast ih => exact (hlast.ofConcreteAt_eq none []).trans ih

/-! ## All of it together -/

/-- The nodes of the syntax tree in document order are the root and those concrete nodes that are part of the model
    with every node above them, each with its own field as its role. So it does not matter where comments and bare
    tokens stand, and the spans of the syntax tree are arranged if those of the concrete tree are. -/
theorem Node.ofConcrete_keeps (tree : Concrete) :
    (ofConcrete tree).walk.map heading =
        (tree.withAbove.filter (Concrete.IsKept ·)).map (Concrete.headingBelow none) ∧
      tree.withAbove.map Prod.snd = tree.walk ∧
      (∀ grown, Relation.ReflTransGen Concrete.Gains tree grown → ofConcrete grown = ofConcrete tree) ∧
      (tree.IsArranged → (ofConcrete tree).IsArranged) :=
  ⟨map_heading_walk_ofConcreteAt none [] tree, tree.map_snd_withAbove, fun _ h => ofConcrete_eq_of_gains h,
    Concrete.IsArranged.ofConcrete⟩

/-- The sum of two variables, with more nodes before its operator. -/
def sumExpression (beforeOperator : List Concrete) : Concrete :=
  ⟨"binary_expression", none, true, false, false, ⟨0, 12, 0, 0, 0, 12⟩,
    ⟨"identifier", some "left", true, false, false, ⟨0, 1, 0, 0, 0, 1⟩, []⟩ :: beforeOperator ++
      [⟨"+", some "operator", false, false, false, ⟨9, 10, 0, 9, 0, 10⟩, []⟩,
        ⟨"identifier", some "right", true, false, false, ⟨11, 12, 0, 11, 0, 12⟩, []⟩]⟩

/-- A program of one sum, with more nodes before its operator and behind it. -/
def sumProgram (beforeOperator behind : List Concrete) : Concrete :=
  ⟨"program", none, true, false, false, ⟨0, 13, 0, 0, 0, 13⟩, sumExpression beforeOperator :: behind⟩

/-- A comment with a named node below it. -/
def taggedComment : Concrete :=
  ⟨"block_comment", none, true, false, false, ⟨2, 8, 0, 2, 0, 8⟩,
    [⟨"identifier", some "tag", true, false, false, ⟨4, 6, 0, 4, 0, 6⟩, []⟩]⟩

/-- A token that fills no field. -/
def semicolon : Concrete :=
  ⟨";", none, false, false, false, ⟨12, 13, 0, 12, 0, 13⟩, []⟩

/-- Of the eight nodes of a program, the comment with its tag and the semicolon are left out. -/
theorem Node.ofConcrete_keeps_sumProgram :
    (sumProgram [taggedComment] [semicolon]).walk.length = 8 ∧
      (ofConcrete (sumProgram [taggedComment] [semicolon])).walk.map (fun n => (n.heading.kind, n.heading.role)) =
        [("program", none), ("binary_expression", none), ("identifier", some "left"),
          ("+", some "operator"), ("identifier", some "right")] ∧
      ofConcrete (sumProgram [taggedComment] [semicolon]) = ofConcrete (sumProgram [] []) ∧
      (ofConcrete (sumProgram [taggedComment] [semicolon])).IsArranged := by
  -- the comment comes first, and then the semicolon
  have hcomment : (sumProgram [] []).Gains (sumProgram [taggedComment] []) :=
    .within (sumProgram [] []) [] [] (.here (sumExpression []) [_] [_, _] (.inl (by decide)))
  have htoken : (sumProgram [taggedComment] []).Gains (sumProgram [taggedComment] [semicolon]) :=
    .here (sumProgram [] []) [_] [] (.inr ⟨rfl, rfl⟩)
  have hspans : (sumProgram [taggedComment] [semicolon]).IsArranged := by
    unfold Concrete.IsArranged
    decide
  obtain ⟨hwalk, -, -, harranged⟩ := ofConcrete_keeps (sumProgram [taggedComment] [semicolon])
  obtain ⟨-, -, hgains, -⟩ := ofConcrete_keeps (sumProgram [] [])
  refine ⟨rfl, ?_, hgains _ ((Relation.ReflTransGen.single hcomment).tail htoken), harranged hspans⟩
  -- of each heading the kind and the role are enough
  have hshown := congrArg (List.map fun h => (h.kind, h.role)) hwalk
  rw [List.map_map] at hshown
  exact hshown.trans (by decide)

end JavaLint
