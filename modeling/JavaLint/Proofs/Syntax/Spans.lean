import JavaLint.Proofs.Syntax.Position

/-!
# Spans that follow the tree

In an arranged tree the children of a node lie inside its span, one after the other. Spans then tell how two
nodes stand to each other: one above the other if one span holds the other, side by side if the spans do not
overlap.

- `Span.Arranges`: a span and the spans of the children below it
- `Concrete.IsArranged`, `Node.IsArranged`: every node of the tree arranges its children
- `Node.exists_eq_ofConcreteAt`: where the nodes of the syntax tree come from
- `Concrete.IsArranged.ofConcrete`: leaving out comments and tokens keeps a tree arranged
- `Node.IsArranged.contains_of_isPrefix`, `Node.IsArranged.disjoint`: nodes above each other and side by side
-/

namespace JavaLint

/-! ## One node and its children -/

/-- The spans lie inside the outer one, and of any two the first ends at or before the start of the second. -/
structure Span.Arranges (outer : Span) (inner : List Span) : Prop where
  contained : ∀ s ∈ inner, outer.contains s = true
  ordered : inner.Pairwise fun a b => a.endByte ≤ b.startByte

instance (outer : Span) (inner : List Span) : Decidable (outer.Arranges inner) :=
  decidable_of_iff ((∀ s ∈ inner, outer.contains s = true) ∧ inner.Pairwise fun a b => a.endByte ≤ b.startByte)
    ⟨fun h => ⟨h.1, h.2⟩, fun h => ⟨h.1, h.2⟩⟩

/-- Fewer children are still arranged. -/
private theorem Span.Arranges.sublist {outer : Span} {inner kept : List Span} (h : outer.Arranges inner)
    (hkept : kept.Sublist inner) : outer.Arranges kept where
  contained s hs := h.contained s (hkept.subset hs)
  ordered := h.ordered.sublist hkept

/-- Containment is two comparisons of bytes. -/
theorem Span.contains_iff {outer inner : Span} :
    outer.contains inner = true ↔
      outer.startByte ≤ inner.startByte ∧ inner.endByte ≤ outer.endByte := by
  simp [contains]

/-- What lies inside an inner span lies inside the outer one. -/
private theorem Span.contains_trans {a b c : Span} (hab : a.contains b = true) (hbc : b.contains c = true) :
    a.contains c = true := by
  rw [contains_iff] at hab hbc ⊢
  omega

/-- Spans that follow each other one by one are ordered throughout, as none ends before it starts. -/
private theorem Span.pairwise_of_isChain {spans : List Span}
    (hordered : spans.IsChain fun a b => a.endByte ≤ b.startByte)
    (hspans : ∀ s ∈ spans, s.startByte ≤ s.endByte) :
    spans.Pairwise fun a b => a.endByte ≤ b.startByte := by
  induction hordered with
  | nil => exact .nil
  | singleton a => exact List.pairwise_singleton _ a
  | @cons_cons a b rest hab _ ih =>
    obtain ⟨-, hrest⟩ := List.forall_mem_cons.1 hspans
    have htail := ih hrest
    refine List.pairwise_cons.2 ⟨?_, htail⟩
    intro c hc
    rcases List.mem_cons.1 hc with rfl | hc
    · exact hab
    · -- the first span ends before the second starts, and so before the second ends
      have hbc := (List.pairwise_cons.1 htail).1 c hc
      have hb := hrest b List.mem_cons_self
      omega

/-! ## Arranged trees -/

/-- Every node of the concrete tree has its children inside it and in order. -/
def Concrete.IsArranged (tree : Concrete) : Prop :=
  ∀ c ∈ tree.walk, c.span.Arranges (c.children.map (·.span))

instance (tree : Concrete) : Decidable tree.IsArranged :=
  inferInstanceAs (Decidable (∀ c ∈ tree.walk, _))

mutual

/-- What holds of a concrete node once it holds of its children holds of every concrete node. -/
theorem Concrete.induction {motive : Concrete → Prop}
    (step : ∀ c, (∀ child ∈ c.children, motive child) → motive c) : ∀ c, motive c
  | ⟨_, _, _, _, _, _, children⟩ => step _ (Concrete.inductionIn step children)

/-- The same for a list of children. -/
theorem Concrete.inductionIn {motive : Concrete → Prop}
    (step : ∀ c, (∀ child ∈ c.children, motive child) → motive c) :
    ∀ children : List Concrete, ∀ child ∈ children, motive child
  | [] => nofun
  | c :: rest => List.forall_mem_cons.2 ⟨Concrete.induction step c, Concrete.inductionIn step rest⟩

end

/-- The nodes below a node of a tree are nodes of the tree. -/
theorem Concrete.walk_subset {tree c : Concrete} (h : c ∈ tree.walk) : c.walk ⊆ tree.walk := by
  induction tree using Concrete.induction with
  | step tree ih =>
    rw [walk_eq tree, walkAll_eq_flatMap] at h ⊢
    rcases List.mem_cons.1 h with rfl | h
    · rw [walk_eq, walkAll_eq_flatMap]
      exact List.Subset.refl _
    · -- a node below a child is in the tree of that child
      obtain ⟨top, htop, hc⟩ := List.mem_flatMap.1 h
      exact fun d hd => List.mem_cons_of_mem _ (List.mem_flatMap.2 ⟨top, htop, ih top htop hc hd⟩)

/-- A node is the first of its own tree. -/
theorem Concrete.mem_walk_self (c : Concrete) : c ∈ c.walk := by
  rw [walk_eq]
  exact List.mem_cons_self

/-- A child of a node of a tree is a node of the tree. -/
theorem Concrete.mem_walk_of_mem_children {tree c child : Concrete} (hc : c ∈ tree.walk)
    (h : child ∈ c.children) : child ∈ tree.walk := by
  apply walk_subset hc
  rw [walk_eq, walkAll_eq_flatMap]
  exact List.mem_cons_of_mem _ (List.mem_flatMap.2 ⟨child, h, child.mem_walk_self⟩)

/-- If no node ends before it starts, it is enough that each child ends at or before the start of the next. -/
theorem Concrete.isArranged_of_isChain {tree : Concrete}
    (hspans : ∀ c ∈ tree.walk, c.span.startByte ≤ c.span.endByte)
    (hcontained : ∀ c ∈ tree.walk, ∀ child ∈ c.children, c.span.contains child.span = true)
    (hordered : ∀ c ∈ tree.walk, (c.children.map (·.span)).IsChain fun a b => a.endByte ≤ b.startByte) :
    tree.IsArranged := by
  intro c hc
  have hchildren : ∀ s ∈ c.children.map (·.span), s.startByte ≤ s.endByte := by
    intro s hs
    obtain ⟨child, hchild, rfl⟩ := List.mem_map.1 hs
    exact hspans child (mem_walk_of_mem_children hc hchild)
  exact ⟨List.forall_mem_map.2 (hcontained c hc), Span.pairwise_of_isChain (hordered c hc) hchildren⟩

namespace Node

/-- Every node of the tree has its children inside it and in order. -/
def IsArranged (root : Node) : Prop :=
  ∀ n ∈ root.walk, n.span.Arranges (n.children.map (·.span))

/-- A tree is arranged if its root is and the trees of its children are. -/
private theorem isArranged_iff {n : Node} :
    n.IsArranged ↔ n.span.Arranges (n.children.map (·.span)) ∧ ∀ c ∈ n.children, c.IsArranged := by
  rw [IsArranged, walk_eq, walkAll_eq_flatMap, List.forall_mem_cons, List.forall_mem_flatMap]
  rfl

/-- The children that are kept have the spans they had. -/
private theorem map_span_ofConcreteList (place : List Nat) (index : Nat) (children : List Concrete) :
    (ofConcreteList place index children).map (·.span) =
      (children.filter isModelled).map (·.span) := by
  -- for any index, as it only counts the children that are kept
  induction children generalizing index with
  | nil => rfl
  | cons child rest ih =>
    rw [ofConcreteList, List.filter_cons]
    split
    · rw [List.map_cons, List.map_cons, ih]
      obtain ⟨kind, field, named, missing, hasError, span, children⟩ := child
      rfl
    · exact ih index

/-- A child that is kept is the syntax node of a concrete child. -/
theorem mem_ofConcreteList {place : List Nat} {index : Nat} {children : List Concrete} {n : Node}
    (h : n ∈ ofConcreteList place index children) :
    ∃ child ∈ children, ∃ place', n = ofConcreteAt child.field place' child := by
  induction children generalizing index with
  | nil => exact nomatch h
  | cons child rest ih =>
    rw [ofConcreteList] at h
    -- the first child is kept or left out, and the rest is the same either way
    split at h
    · rcases List.mem_cons.1 h with rfl | h
      · exact ⟨child, List.mem_cons_self, _, rfl⟩
      · obtain ⟨c, hc, hn⟩ := ih h
        exact ⟨c, List.mem_cons_of_mem child hc, hn⟩
    · obtain ⟨c, hc, hn⟩ := ih h
      exact ⟨c, List.mem_cons_of_mem child hc, hn⟩

/-- The children of two lists are numbered on from the first list to the second. -/
theorem ofConcreteList_append (place : List Nat) (index : Nat) (before after : List Concrete) :
    ofConcreteList place index (before ++ after) =
      ofConcreteList place index before ++ ofConcreteList place (index + before.countP isModelled) after := by
  induction before generalizing index with
  | nil => rfl
  | cons child rest ih =>
    rw [List.cons_append, ofConcreteList, ofConcreteList, List.countP_cons]
    split
    · rw [ih, List.cons_append, Nat.add_right_comm, Nat.add_assoc]
    · exact ih index

/-- A syntax node has the span of the concrete node and the children that are kept of it. -/
theorem children_ofConcreteAt (role : Option String) (place : List Nat) (c : Concrete) :
    (ofConcreteAt role place c).span = c.span ∧
      (ofConcreteAt role place c).children = ofConcreteList place 0 c.children := by
  obtain ⟨kind, field, named, missing, hasError, span, children⟩ := c
  rw [ofConcreteAt]
  exact ⟨rfl, rfl⟩

/-- Every node of a syntax tree is the syntax node of a concrete node. -/
theorem exists_eq_ofConcreteAt {tree : Concrete} {role : Option String} {place : List Nat} {n : Node}
    (h : n ∈ (ofConcreteAt role place tree).walk) :
    ∃ c ∈ tree.walk, ∃ role' place', n = ofConcreteAt role' place' c := by
  induction tree using Concrete.induction generalizing role place with
  | step tree ih =>
    rw [walk_eq, walkAll_eq_flatMap, (children_ofConcreteAt role place tree).2] at h
    rw [Concrete.walk_eq, Concrete.walkAll_eq_flatMap]
    rcases List.mem_cons.1 h with rfl | h
    · exact ⟨tree, List.mem_cons_self, role, place, rfl⟩
    · -- a child that is kept comes from a concrete child, where the search goes on
      obtain ⟨child, hchild, hn⟩ := List.mem_flatMap.1 h
      obtain ⟨c, hc, place', rfl⟩ := mem_ofConcreteList hchild
      obtain ⟨d, hd, horigin⟩ := ih c hc hn
      exact ⟨d, List.mem_cons_of_mem _ (List.mem_flatMap.2 ⟨c, hc, hd⟩), horigin⟩

/-- The spans of the children that are kept are some of those of all children. -/
private theorem sublist_spans_ofConcreteAt (role : Option String) (place : List Nat) (c : Concrete) :
    ((ofConcreteAt role place c).children.map (·.span)).Sublist (c.children.map (·.span)) := by
  rw [(children_ofConcreteAt role place c).2, map_span_ofConcreteList]
  exact List.filter_sublist.map _

end Node

/-- The syntax tree of an arranged tree is arranged. -/
theorem Concrete.IsArranged.ofConcrete {tree : Concrete} (h : tree.IsArranged) :
    (Node.ofConcrete tree).IsArranged := by
  intro n hn
  obtain ⟨c, hc, role, place, rfl⟩ := Node.exists_eq_ofConcreteAt hn
  rw [(Node.children_ofConcreteAt role place c).1]
  exact (h c hc).sublist (Node.sublist_spans_ofConcreteAt role place c)

/-! ## How two nodes stand to each other -/

namespace Node.IsArranged

variable {root a b : Node} {p q : List Nat}

/-- The tree below any position is arranged. -/
private theorem of_at? (h : root.IsArranged) (hat : root.at? p = some a) : a.IsArranged := by
  induction p generalizing root with
  | nil =>
    rw [at?_nil, Option.some.injEq] at hat
    rw [← hat]
    exact h
  | cons i rest ih =>
    obtain ⟨c, hchild, hat⟩ := Option.bind_eq_some_iff.1 hat
    exact ih ((isArranged_iff.1 h).2 c (List.mem_of_getElem? hchild)) hat

/-- A tree holds every node in it. -/
private theorem contains_of_at? (h : root.IsArranged) (hat : root.at? p = some a) : root.contains a = true := by
  induction p generalizing root with
  | nil =>
    rw [at?_nil, Option.some.injEq] at hat
    rw [hat, Node.contains, Span.contains_iff]
    omega
  | cons i rest ih =>
    obtain ⟨c, hchild, hat⟩ := Option.bind_eq_some_iff.1 hat
    have hmem := List.mem_of_getElem? hchild
    obtain ⟨harranges, hchildren⟩ := isArranged_iff.1 h
    -- the child lies inside the root, and the node inside the child
    have houter := harranges.contained c.span (List.mem_map_of_mem hmem)
    exact Span.contains_trans houter (ih (hchildren c hmem) hat)

/-- A node holds every node below it. -/
theorem contains_of_isPrefix (h : root.IsArranged) (ha : root.at? p = some a) (hb : root.at? q = some b)
    (hpq : p <+: q) : a.contains b = true := by
  obtain ⟨rest, rfl⟩ := hpq
  rw [at?_append, ha] at hb
  exact (h.of_at? ha).contains_of_at? hb

/-- A child ends at or before the start of a later one. -/
private theorem end_le_start (h : root.IsArranged) {i j : Nat} (hij : i < j) (ha : root.children[i]? = some a)
    (hb : root.children[j]? = some b) : a.span.endByte ≤ b.span.startByte := by
  obtain ⟨harranges, -⟩ := isArranged_iff.1 h
  have hpairwise := harranges.ordered
  rw [List.pairwise_map, List.pairwise_iff_getElem] at hpairwise
  obtain ⟨hi, rfl⟩ := List.getElem?_eq_some_iff.1 ha
  obtain ⟨hj, rfl⟩ := List.getElem?_eq_some_iff.1 hb
  exact hpairwise i j hi hj hij

/-- Nodes of which none stands above the other do not overlap. -/
theorem disjoint (h : root.IsArranged) (ha : root.at? p = some a) (hb : root.at? q = some b)
    (hpq : ¬ p <+: q) (hqp : ¬ q <+: p) :
    a.span.endByte ≤ b.span.startByte ∨ b.span.endByte ≤ a.span.startByte := by
  -- down to the last node that both positions go through, and there into two different children
  induction p generalizing root q with
  | nil => exact absurd List.nil_prefix hpq
  | cons i p ih =>
    cases q with
    | nil => exact absurd List.nil_prefix hqp
    | cons j q =>
      obtain ⟨c, hc, hca⟩ := Option.bind_eq_some_iff.1 ha
      obtain ⟨d, hd, hdb⟩ := Option.bind_eq_some_iff.1 hb
      have hchild : ∀ x ∈ root.children, x.IsArranged := (isArranged_iff.1 h).2
      have hcarranged := hchild c (List.mem_of_getElem? hc)
      have hdarranged := hchild d (List.mem_of_getElem? hd)
      have hinC := Span.contains_iff.1 (hcarranged.contains_of_at? hca)
      have hinD := Span.contains_iff.1 (hdarranged.contains_of_at? hdb)
      rcases Nat.lt_trichotomy i j with hij | rfl | hji
      · -- both nodes lie inside their children, which do not overlap
        have hcd := h.end_le_start hij hc hd
        omega
      · -- in the same child, further down
        rw [hc, Option.some.injEq] at hd
        rw [← hd] at hdb
        rw [List.cons_prefix_cons] at hpq hqp
        exact ih hcarranged hca hdb (fun hp => hpq ⟨rfl, hp⟩) (fun hq => hqp ⟨rfl, hq⟩)
      · have hdc := h.end_le_start hji hd hc
        omega

/-- A node that holds another one, which is not empty, stands above it, or below it with the same span. -/
theorem prefix_of_contains (h : root.IsArranged) (ha : root.at? p = some a) (hb : root.at? q = some b)
    (hne : b.span.startByte < b.span.endByte) (hcontains : a.contains b = true) :
    p <+: q ∨ (q <+: p ∧ a.span.startByte = b.span.startByte ∧ a.span.endByte = b.span.endByte) := by
  have hab := Span.contains_iff.1 hcontains
  by_cases hpq : p <+: q
  · exact .inl hpq
  · by_cases hqp : q <+: p
    · -- each holds the other, so they have the same ends
      have hba := Span.contains_iff.1 (h.contains_of_isPrefix hb ha hqp)
      exact .inr ⟨hqp, by omega, by omega⟩
    · -- side by side, a node that is not empty cannot lie inside the other
      have hdisjoint := h.disjoint ha hb hpq hqp
      omega

end Node.IsArranged

end JavaLint
