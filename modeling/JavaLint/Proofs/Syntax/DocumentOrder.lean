import JavaLint.Proofs.Syntax.Position

/-!
# Document order

Positions are ordered like words: a node comes before everything below it, and what is below one child comes
before the later children. The nodes of a tree are listed in this order, and so is every selection of them.

- `pairwise_located`: the nodes of a tree are listed in document order
- `Lists`: a list of all nodes with some property, in document order
- `lists_filter`: how such a list is made
- `collect_lists`: what the search inside a body finds
-/

namespace JavaLint.Node

/-! ## The order of positions -/

/-- Positions in the children of a node are in order if they are so in each child. -/
private theorem pairwise_inChildren {positions : Node → List (List Nat × Node)} {children : List Node}
    (h : ∀ child ∈ children, ((positions child).map Prod.fst).Pairwise (· < ·)) :
    ((inChildren positions children).map Prod.fst).Pairwise (· < ·) := by
  rw [inChildren, List.map_flatMap, List.pairwise_flatMap]
  constructor
  · rintro ⟨child, i⟩ hmem
    have hchild := h child (List.fst_mem_of_mem_zipIdx hmem)
    rw [List.pairwise_map] at hchild
    rw [List.map_map, List.pairwise_map]
    exact hchild.imp fun hlt => List.cons_lt_cons_self.2 hlt
  · have hindex : (children.zipIdx.map Prod.snd).Pairwise (· < ·) := by
      rw [List.zipIdx_map_snd]
      exact List.pairwise_lt_range'
    refine (List.pairwise_map.1 hindex).imp ?_
    rintro ⟨child, i⟩ ⟨child', j⟩ hlt place hi place' hj
    simp only [List.map_map, List.mem_map, Function.comp_apply] at hi hj
    obtain ⟨x, -, rfl⟩ := hi
    obtain ⟨y, -, rfl⟩ := hj
    -- the positions differ in their first index already
    exact List.cons_lt_cons_iff.2 (.inl hlt)

/-- The nodes of a tree are listed in document order. -/
theorem pairwise_located (n : Node) : (n.located.map Prod.fst).Pairwise (· < ·) := by
  induction n using induction with
  | step n ih =>
    rw [located_eq, List.map_cons, List.pairwise_cons]
    refine ⟨?_, pairwise_inChildren ih⟩
    -- the root comes first, as every other position has an index
    intro place hplace
    obtain ⟨x, hx, rfl⟩ := List.mem_map.1 hplace
    have hne := ne_nil_of_mem_inChildren hx
    obtain ⟨i, rest, hcons⟩ := List.exists_cons_of_ne_nil (List.isEmpty_eq_false_iff.1 hne)
    rw [hcons]
    exact List.nil_lt_cons i rest

/-! ## Selections -/

/-- The list holds the nodes of the tree that have some property, with their positions: all of them, in
    document order, and none twice. -/
structure Lists (root : Node) (property : List Nat → Node → Prop) (nodes : List (List Nat × Node)) :
    Prop where
  ascending : (nodes.map Prod.fst).Pairwise (· < ·)
  mem_iff : ∀ place n, (place, n) ∈ nodes ↔ root.at? place = some n ∧ property place n

/-- A filter of all nodes of the tree is such a list. -/
theorem lists_filter {root : Node} {property : List Nat → Node → Prop} {p : List Nat × Node → Bool}
    (h : ∀ place n, root.at? place = some n → (p (place, n) = true ↔ property place n)) :
    root.Lists property (root.located.filter p) where
  ascending := root.pairwise_located.sublist (List.filter_sublist.map Prod.fst)
  mem_iff := by
    intro place n
    rw [List.mem_filter, mem_located]
    exact and_congr_right (h place n)

/-! ## The search inside a body -/

/-- The search inside a body finds the nodes of the given kinds below it, with no node of a boundary kind
    strictly in between: all of them, in document order, and none twice. The kind of the body itself plays no
    part. -/
theorem collect_lists (kinds boundary : List String) (body : Node) :
    (∃ found, body.collect kinds boundary = found.map Prod.snd ∧
      body.Lists (fun place n => place ≠ [] ∧ n.kind ∈ kinds ∧
        ∀ k, 0 < k → k < place.length → ∀ m, body.at? (place.take k) = some m → m.kind ∉ boundary) found) ∧
    ∀ kind, collect kinds boundary { body with kind } = body.collect kinds boundary := by
  refine ⟨⟨body.collectLocated kinds boundary, ?_, ?_⟩, ?_⟩
  · exact body.collect_eq_map_collectLocated kinds boundary
  · refine lists_filter fun place n _ => ?_
    simp [isFound, isClear_iff]
  · intro kind
    rw [collect_eq_collectIn, collect_eq_collectIn]

end JavaLint.Node
