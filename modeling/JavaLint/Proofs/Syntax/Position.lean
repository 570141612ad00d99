import JavaLint.Syntax.ExitPoints
import Mathlib.Data.List.Nodup

/-!
# Positions in a syntax tree

A position is the list of child indices that leads from the root to a node. It tells a node from every
other one, whatever the nodes hold; the positions above it are the initial parts of the list.

- `at?`: the node at a position
- `located`: all nodes with their positions, in document order
- `mem_located`, `nodup_located`, `map_snd_located`: each position once, each with its node
- `isClear`: no node of a boundary kind stands strictly between a node and a position below it
- `collect_eq_map_collectLocated`: the search inside a body finds what is not behind a boundary
-/

namespace JavaLint.Node

/-! ## Nodes with their positions -/

/-- The node at a position. -/
def at? : Node → List Nat → Option Node
  | n, [] => some n
  | n, i :: rest => n.children[i]?.bind (at? · rest)

/-- The empty position is that of the root. -/
@[simp]
theorem at?_nil (n : Node) : n.at? [] = some n := rfl

/-- A position leads into a child first. -/
@[simp]
theorem at?_cons (n : Node) (i : Nat) (rest : List Nat) :
    n.at? (i :: rest) = n.children[i]?.bind (at? · rest) := rfl

/-- Positions compose. -/
theorem at?_append (n : Node) (above below : List Nat) :
    n.at? (above ++ below) = (n.at? above).bind (at? · below) := by
  induction above generalizing n with
  | nil => rfl
  | cons i rest ih =>
    rw [List.cons_append, at?_cons, at?_cons]
    cases n.children[i]? with
    | none => rfl
    | some c => exact ih c

mutual

/-- What holds of a node once it holds of its children holds of every node. -/
theorem induction {motive : Node → Prop} (step : ∀ n, (∀ c ∈ n.children, motive c) → motive n) :
    ∀ n, motive n
  | ⟨_, _, _, _, children⟩ => step _ (inductionIn step children)

/-- The same for a list of children. -/
theorem inductionIn {motive : Node → Prop} (step : ∀ n, (∀ c ∈ n.children, motive c) → motive n) :
    ∀ children : List Node, ∀ c ∈ children, motive c
  | [] => nofun
  | n :: rest => List.forall_mem_cons.2 ⟨induction step n, inductionIn step rest⟩

end

mutual

/-- The nodes of a tree with their positions, in document order. -/
def located : Node → List (List Nat × Node)
  | n@⟨_, _, _, _, children⟩ => ([], n) :: locatedFrom 0 children

/-- The nodes at and below a list of children; the first one has the given index. -/
def locatedFrom (index : Nat) : List Node → List (List Nat × Node)
  | [] => []
  | child :: rest =>
    child.located.map (fun (place, n) => (index :: place, n)) ++ locatedFrom (index + 1) rest

end

/-- Positions in each of some children, led by the index of the child. -/
def inChildren (positions : Node → List (List Nat × Node)) (children : List Node) :
    List (List Nat × Node) :=
  children.zipIdx.flatMap fun (child, index) =>
    (positions child).map fun (place, n) => (index :: place, n)

/-- The nodes of some children, child by child. -/
private theorem locatedFrom_eq (index : Nat) (children : List Node) :
    locatedFrom index children = (children.zipIdx index).flatMap fun (child, i) =>
      child.located.map fun (place, n) => (i :: place, n) := by
  induction children generalizing index with
  | nil => rfl
  | cons child rest ih => rw [locatedFrom, ih, List.zipIdx_cons, List.flatMap_cons]

/-- A node comes first, and then those in its children. -/
theorem located_eq (n : Node) : n.located = ([], n) :: inChildren located n.children := by
  obtain ⟨kind, role, span, place, children⟩ := n
  rw [located, locatedFrom_eq]
  rfl

/-- A position in the children is the index of a child and a position in that child. -/
theorem mem_inChildren {positions : Node → List (List Nat × Node)} {children : List Node}
    {place : List Nat} {n : Node} :
    (place, n) ∈ inChildren positions children ↔
      ∃ i child rest, place = i :: rest ∧ children[i]? = some child ∧ (rest, n) ∈ positions child := by
  simp only [inChildren, List.mem_flatMap, List.mem_map, Prod.exists, Prod.mk.injEq,
    List.mk_mem_zipIdx_iff_getElem?]
  constructor
  · rintro ⟨child, i, hchild, rest, m, hmem, rfl, rfl⟩
    exact ⟨i, child, rest, rfl, hchild, hmem⟩
  · rintro ⟨i, child, rest, rfl, hchild, hmem⟩
    exact ⟨child, i, hchild, rest, n, hmem, rfl, rfl⟩

/-- Different children have different indices, so nothing is met twice. -/
theorem nodup_inChildren {positions : Node → List (List Nat × Node)} {children : List Node}
    (h : ∀ child ∈ children, ((positions child).map Prod.fst).Nodup) :
    ((inChildren positions children).map Prod.fst).Nodup := by
  rw [inChildren, List.map_flatMap, List.nodup_flatMap]
  constructor
  · rintro ⟨child, i⟩ hmem
    have hchild := h child (List.fst_mem_of_mem_zipIdx hmem)
    rw [List.map_map]
    have hmap : (positions child).map (Prod.fst ∘ fun x => (i :: x.1, x.2)) =
        ((positions child).map Prod.fst).map (i :: ·) := by
      rw [List.map_map]
      rfl
    rw [hmap]
    exact hchild.map (List.cons_injective)
  · have hindex : (children.zipIdx.map Prod.snd).Nodup := by
      rw [List.zipIdx_map_snd]
      exact List.nodup_range'
    refine (List.pairwise_map.1 hindex).imp ?_
    -- in two children, positions differ in their first index
    rintro ⟨child, i⟩ ⟨child', j⟩ hne place hi hj
    simp only [List.mem_map] at hi hj
    obtain ⟨_, ⟨x, -, rfl⟩, rfl⟩ := hi
    obtain ⟨_, ⟨y, -, rfl⟩, heq⟩ := hj
    exact hne (List.cons.inj heq).1.symm

/-- The nodes that are listed are those at their positions. -/
theorem mem_located {n m : Node} {place : List Nat} :
    (place, m) ∈ n.located ↔ n.at? place = some m := by
  -- a position other than that of the root goes on in a child
  induction n using induction generalizing place with
  | step n ih =>
    rw [located_eq, List.mem_cons, mem_inChildren]
    cases place with
    | nil => simp [eq_comm]
    | cons i rest =>
      simp only [Prod.mk.injEq, reduceCtorEq, false_and, false_or, List.cons.injEq, at?_cons,
        Option.bind_eq_some_iff]
      constructor
      · rintro ⟨j, child, r, ⟨rfl, rfl⟩, hchild, hmem⟩
        exact ⟨child, hchild, (ih child (List.mem_of_getElem? hchild)).1 hmem⟩
      · rintro ⟨child, hchild, hat⟩
        exact ⟨i, child, rest, ⟨rfl, rfl⟩, hchild, (ih child (List.mem_of_getElem? hchild)).2 hat⟩

/-- No position is listed twice. -/
theorem nodup_located (n : Node) : (n.located.map Prod.fst).Nodup := by
  induction n using induction with
  | step n ih =>
    rw [located_eq, List.map_cons, List.nodup_cons]
    refine ⟨?_, nodup_inChildren ih⟩
    -- the position of the root is not met again below
    intro hmem
    obtain ⟨⟨place, m⟩, hin, hnil⟩ := List.mem_map.1 hmem
    obtain ⟨i, child, rest, hplace, -⟩ := mem_inChildren.1 hin
    rw [show place = [] from hnil] at hplace
    exact nomatch hplace

/-- The nodes in the children are listed child by child. -/
theorem map_snd_inChildren {positions : Node → List (List Nat × Node)} (children : List Node) :
    (inChildren positions children).map Prod.snd =
      children.flatMap fun child => (positions child).map Prod.snd := by
  rw [inChildren, List.map_flatMap]
  have hfst : children.flatMap (fun child => (positions child).map Prod.snd) =
      (children.zipIdx.map Prod.fst).flatMap fun child => (positions child).map Prod.snd := by
    rw [List.zipIdx_map_fst]
  rw [hfst, List.flatMap_map]
  refine List.flatMap_congr fun x _ => ?_
  rw [List.map_map]
  rfl

/-- The nodes of the tree in document order. -/
theorem map_snd_located (n : Node) : n.located.map Prod.snd = n.walk := by
  induction n using induction with
  | step n ih =>
    rw [located_eq, List.map_cons, map_snd_inChildren, walk_eq, walkAll_eq_flatMap]
    exact congrArg _ (List.flatMap_congr ih)

/-! ## Nothing in between -/

/-- No node of a boundary kind stands strictly between a node and the position below it. -/
def isClear (boundary : List String) : Node → List Nat → Bool
  | _, [] => true
  | n, i :: rest =>
    rest.isEmpty || n.children[i]?.all fun c => !boundary.contains c.kind && c.isClear boundary rest

/-- The positions in between are the initial parts of the position. -/
theorem isClear_iff {boundary : List String} {n : Node} {place : List Nat} :
    n.isClear boundary place = true ↔ ∀ k, 0 < k → k < place.length →
      ∀ m, n.at? (place.take k) = some m → m.kind ∉ boundary := by
  induction place generalizing n with
  | nil => simp [isClear]
  | cons i rest ih =>
    cases hchild : n.children[i]? with
    | none =>
      -- there is no node at any of these positions
      have hnone : ∀ k, 0 < k → n.at? ((i :: rest).take k) = none := by
        intro k hk
        obtain ⟨j, rfl⟩ := Nat.exists_eq_add_of_lt hk
        simp [hchild]
      simp only [isClear, hchild, Option.all_none, Bool.or_true, true_iff]
      intro k hk _ m hm
      rw [hnone k hk] at hm
      exact nomatch hm
    | some c =>
      -- a position below the child is one step shorter there
      have hbelow : ∀ k, n.at? ((i :: rest).take (k + 1)) = c.at? (rest.take k) := by
        intro k
        rw [List.take_succ_cons, at?_cons, hchild]
        rfl
      simp only [isClear, hchild, Option.all_some, Bool.or_eq_true, List.isEmpty_iff, Bool.and_eq_true,
        Bool.not_eq_true', List.contains_eq_mem, decide_eq_false_iff_not, ih]
      constructor
      · rintro (rfl | ⟨hkind, hrest⟩) k hk hlt m hm
        · simp only [List.length_singleton] at hlt
          omega
        · obtain ⟨j, rfl⟩ : ∃ j, k = j + 1 := ⟨k - 1, by omega⟩
          rw [hbelow] at hm
          -- the first node on the way is the child itself
          by_cases hj : j = 0
          · rw [hj, List.take_zero, at?_nil] at hm
            rw [← Option.some.inj hm]
            exact hkind
          · rw [List.length_cons] at hlt
            exact hrest j (by omega) (by omega) m hm
      · intro hall
        by_cases hempty : rest = []
        · exact .inl hempty
        · have hpos : 0 < rest.length := List.length_pos_iff.2 hempty
          refine .inr ⟨?_, ?_⟩
          · refine hall 1 (by omega) (by rw [List.length_cons]; omega) c ?_
            rw [hbelow 0, List.take_zero, at?_nil]
          · intro k hk hlt m hm
            refine hall (k + 1) (by omega) (by rw [List.length_cons]; omega) m ?_
            rw [hbelow k]
            exact hm

/-! ## What a search finds -/

/-- The node is found by a search for the given kinds below `n` that does not enter boundaries. -/
def isFound (kinds boundary : List String) (n : Node) (x : List Nat × Node) : Bool :=
  !x.1.isEmpty && (kinds.contains x.2.kind && n.isClear boundary x.1)

/-- The nodes found below a node, with their positions. -/
def collectLocated (kinds boundary : List String) (n : Node) : List (List Nat × Node) :=
  n.located.filter (n.isFound kinds boundary)

/-- A search through some children, child by child. -/
private theorem collectIn_eq_flatMap (kinds boundary : List String) (children : List Node) :
    collectIn kinds boundary children = children.flatMap fun c =>
      (if kinds.contains c.kind then [c] else []) ++
        (if boundary.contains c.kind then [] else c.collect kinds boundary) := by
  induction children with
  | nil => rfl
  | cons c rest ih => rw [collectIn, ih, List.flatMap_cons]

/-- A search below a node is one through its children. -/
theorem collect_eq_collectIn (kinds boundary : List String) (n : Node) :
    n.collect kinds boundary = collectIn kinds boundary n.children := by
  obtain ⟨kind, role, span, place, children⟩ := n
  rw [collect]

/-- No position in the children is that of the root. -/
theorem ne_nil_of_mem_inChildren {positions : Node → List (List Nat × Node)} {children : List Node}
    {x : List Nat × Node} (h : x ∈ inChildren positions children) : x.1.isEmpty = false := by
  obtain ⟨i, child, rest, hplace, -⟩ := mem_inChildren.1 (show (x.1, x.2) ∈ _ from h)
  rw [hplace]
  rfl

/-- What is found in one child: the child itself, and what is found below it unless it is a boundary. -/
private theorem filter_located_child {kinds boundary : List String} {n child : Node} {i : Nat}
    (h : n.children[i]? = some child) :
    child.located.filter (fun x => n.isFound kinds boundary (i :: x.1, x.2)) =
      (if kinds.contains child.kind then [([], child)] else []) ++
        (if boundary.contains child.kind then [] else child.collectLocated kinds boundary) := by
  -- seen from above, a node in the child has the child in between, if it is not the child itself
  have hfound : ∀ x : List Nat × Node, n.isFound kinds boundary (i :: x.1, x.2) =
      (kinds.contains x.2.kind &&
        (x.1.isEmpty || (!boundary.contains child.kind && child.isClear boundary x.1))) := by
    intro x
    simp [isFound, isClear, h]
  -- so below the child nothing is found, or what is found from there
  have htail : (inChildren located child.children).filter
        (fun x => n.isFound kinds boundary (i :: x.1, x.2)) =
      if boundary.contains child.kind then [] else child.collectLocated kinds boundary := by
    rw [collectLocated, located_eq child, List.filter_cons_of_neg (by simp [isFound])]
    cases hb : boundary.contains child.kind with
    | true =>
      rw [if_pos rfl, List.filter_eq_nil_iff]
      intro x hx
      rw [hfound, hb, ne_nil_of_mem_inChildren hx]
      simp
    | false =>
      rw [if_neg Bool.false_ne_true]
      refine List.filter_congr fun x hx => ?_
      rw [hfound, hb, isFound, ne_nil_of_mem_inChildren hx]
      rfl
  rw [located_eq child, List.filter_cons, htail, hfound]
  cases kinds.contains child.kind <;> simp

/-- The search finds, in document order, the nodes of the given kinds that are not behind a boundary. -/
theorem collect_eq_map_collectLocated (kinds boundary : List String) (n : Node) :
    n.collect kinds boundary = (n.collectLocated kinds boundary).map Prod.snd := by
  induction n using induction with
  | step n ih =>
    -- the nodes that are found, child by child, just as the search goes
    have hlocated : n.collectLocated kinds boundary = inChildren (fun c =>
        (if kinds.contains c.kind then [([], c)] else []) ++
          (if boundary.contains c.kind then [] else c.collectLocated kinds boundary)) n.children := by
      rw [collectLocated, located_eq, List.filter_cons_of_neg (by simp [isFound]), inChildren,
        List.filter_flatMap, inChildren]
      refine List.flatMap_congr fun x hx => ?_
      obtain ⟨child, i⟩ := x
      have hchild := List.mk_mem_zipIdx_iff_getElem?.1 hx
      rw [List.filter_map]
      exact congrArg (List.map fun x => (i :: x.1, x.2)) (filter_located_child hchild)
    rw [collect_eq_collectIn, collectIn_eq_flatMap, hlocated, map_snd_inChildren]
    refine List.flatMap_congr fun c hc => ?_
    rw [List.map_append, ih c hc]
    cases kinds.contains c.kind <;> cases boundary.contains c.kind <;> rfl

/-- What a search finds: nodes below the start, of the given kinds, and not behind a boundary. -/
theorem mem_collectLocated {kinds boundary : List String} {n m : Node} {place : List Nat} :
    (place, m) ∈ n.collectLocated kinds boundary ↔
      n.at? place = some m ∧ place ≠ [] ∧ m.kind ∈ kinds ∧ n.isClear boundary place = true := by
  simp [collectLocated, List.mem_filter, mem_located, isFound]

/-- Nothing is found twice. -/
theorem nodup_collectLocated (kinds boundary : List String) (n : Node) :
    ((n.collectLocated kinds boundary).map Prod.fst).Nodup :=
  (List.filter_sublist.map Prod.fst).nodup n.nodup_located

end JavaLint.Node
