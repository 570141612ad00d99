import JavaLint.Proofs.Rule.Findings

/-!
# Exits from finally blocks are found once

The rules on finally blocks look at every finally clause of a tree, and from each of them search its blocks
without entering callables or further finally clauses. However these are nested, a statement is found from
the innermost finally clause around it alone, and it is found exactly if some finally clause encloses it
with no callable in between.

- `mem_statementsAt`: what is found from one clause, by position below it
- `IsInsideFinally`: some finally clause encloses the position, with no callable in between
- `IsInsideFinally.exists_isNearest`: then so does the innermost finally clause
- `apply_reports_inside`: what is reported in a tree
-/

namespace JavaLint.FinallyExit

open Node (nestedCallableKinds IsNearest)

/-! ## What is found from one clause -/

/-- What is found in one child of a finally clause, by position below the child. -/
def searchBlock (exit : FinallyExit) (child : Node) : List (List Nat × Node) :=
  if child.kind == "block" then child.collectLocated [exit.statementKind] boundaryKinds else []

/-- The statements by which a finally clause is left, with their positions below it. -/
def statementsAt (exit : FinallyExit) (clause : Node) : List (List Nat × Node) :=
  Node.inChildren exit.searchBlock clause.children

/-- These are the statements that the rule looks at. -/
private theorem map_snd_statementsAt (exit : FinallyExit) (clause : Node) :
    (exit.statementsAt clause).map Prod.snd = exit.statements clause := by
  rw [statementsAt, Node.map_snd_inChildren, statements, Node.childrenOfKind]
  induction clause.children with
  | nil => rfl
  | cons child rest ih =>
    rw [List.flatMap_cons, ih, List.filter_cons, searchBlock]
    by_cases hblock : child.kind = "block"
    · simp [hblock, Node.collect_eq_map_collectLocated]
    · simp [hblock]

/-- A statement is found from a clause if it stands inside one of its blocks, behind no boundary. A block
    is no boundary and no statement itself. -/
theorem mem_statementsAt {exit : FinallyExit} {clause s : Node} {below : List Nat} :
    (below, s) ∈ exit.statementsAt clause ↔
      clause.at? below = some s ∧ s.kind = exit.statementKind ∧ below ≠ [] ∧
        clause.isClear boundaryKinds below = true ∧
        ∃ i block, below[0]? = some i ∧ clause.children[i]? = some block ∧ block.kind = "block" := by
  have hkind : exit.statementKind ≠ "block" := by
    cases exit <;> decide
  have hboundary : "block" ∉ boundaryKinds := by decide
  rw [statementsAt, Node.mem_inChildren]
  constructor
  · -- from the clause the block comes first, and it is no boundary
    rintro ⟨i, block, rest, rfl, hchild, hmem⟩
    rw [searchBlock] at hmem
    split at hmem
    · rename_i hblock
      rw [beq_iff_eq] at hblock
      obtain ⟨hat, hne, hs, hclear⟩ := Node.mem_collectLocated.1 hmem
      refine ⟨?_, List.mem_singleton.1 hs, List.cons_ne_nil _ _, ?_, i, block, rfl, hchild, hblock⟩
      · rw [Node.at?_cons, hchild]
        exact hat
      · rw [Node.isClear, hchild, Option.all_some, hblock, hclear]
        simp [hboundary]
    · cases hmem
  · rintro ⟨hat, hs, hne, hclear, i, block, hhead, hchild, hblock⟩
    obtain ⟨j, rest, rfl⟩ := List.exists_cons_of_ne_nil hne
    obtain rfl : j = i := by simpa using hhead
    rw [Node.at?_cons, hchild, Option.bind_some] at hat
    -- the statement is not the block, so there is a way to go below it
    have hrest : rest ≠ [] := by
      rintro rfl
      rw [Node.at?_nil, Option.some.injEq] at hat
      rw [hat] at hblock
      exact hkind (hs.symm.trans hblock)
    rw [Node.isClear, hchild, List.isEmpty_eq_false_iff.2 hrest, Bool.false_or, Option.all_some,
      Bool.and_eq_true] at hclear
    refine ⟨j, block, rest, rfl, hchild, ?_⟩
    rw [searchBlock, if_pos (beq_iff_eq.2 hblock)]
    exact Node.mem_collectLocated.2 ⟨hat, hrest, List.mem_singleton.2 hs, hclear.2⟩

/-- No statement is listed twice. -/
private theorem nodup_statementsAt (exit : FinallyExit) (clause : Node) :
    ((exit.statementsAt clause).map Prod.fst).Nodup := by
  refine Node.nodup_inChildren fun child _ => ?_
  rw [searchBlock]
  split
  · exact child.nodup_collectLocated _ _
  · exact List.nodup_nil

/-- The positions below a node that the rule reports when it looks at the node. -/
def placesAt (exit : FinallyExit) (n : Node) : List (List Nat) :=
  if n.kind == "finally_clause" then (exit.statementsAt n).map Prod.fst else []

/-- What is reported at one node: the statements that are found from a finally clause. -/
private theorem mem_placesAt {exit : FinallyExit} {n : Node} {below : List Nat} :
    below ∈ exit.placesAt n ↔
      n.kind = "finally_clause" ∧ ∃ s, (below, s) ∈ exit.statementsAt n := by
  rw [placesAt]
  split
  · next h => simp [beq_iff_eq.1 h]
  · next h => simp [mt beq_iff_eq.2 h]

/-- Nothing is reported twice at one node. -/
private theorem nodup_placesAt (exit : FinallyExit) (n : Node) : (exit.placesAt n).Nodup := by
  rw [placesAt]
  split
  · exact exit.nodup_statementsAt n
  · exact List.nodup_nil

/-- What the rule finds at a node are the nodes at the positions it reports. -/
private theorem nodes_respond (exit : FinallyExit) (n : Node) :
    (exit.respond n).scan.findings.map (·.node?) = (exit.placesAt n).map n.at? := by
  rw [respond, placesAt]
  split
  · rw [← map_snd_statementsAt]
    simp only [Response.found, List.map_map]
    refine List.map_congr_left fun x hx => ?_
    exact (mem_statementsAt.1 hx).1.symm
  · rfl

/-- The rule never fails and looks at every node. -/
theorem respond_descends (exit : FinallyExit) (n : Node) :
    (exit.respond n).descends = true ∧ (exit.respond n).scan.fault = none := by
  rw [respond]
  split <;> exact ⟨rfl, rfl⟩

/-- What a clause reports can be reached from it without meeting a callable or another clause. -/
private theorem isClear_of_mem_placesAt {exit : FinallyExit} {n : Node} {below : List Nat}
    (h : below ∈ exit.placesAt n) :
    below ≠ [] ∧ n.kind ∈ boundaryKinds ∧ n.isClear boundaryKinds below = true := by
  obtain ⟨hkind, s, hmem⟩ := mem_placesAt.1 h
  obtain ⟨-, -, hne, hclear, -⟩ := mem_statementsAt.1 hmem
  exact ⟨hne, by rw [hkind]; decide, hclear⟩

/-! ## What is reported in a tree -/

/-- Some finally clause encloses the position, and no callable stands strictly between the two. -/
def IsInsideFinally (root : Node) (place : List Nat) : Prop :=
  ∃ depth clause, depth < place.length ∧ root.at? (place.take depth) = some clause ∧
    clause.kind = "finally_clause" ∧
    ∀ k, depth < k → k < place.length → ∀ m, root.at? (place.take k) = some m →
      m.kind ∉ nestedCallableKinds

/-- Every finally clause of the tree holds blocks only. -/
def HasFinallyBlocks (root : Node) : Prop :=
  ∀ clause ∈ root.walk, clause.kind = "finally_clause" → ∀ child ∈ clause.children, child.kind = "block"

/-- The search stops at callables and at further finally clauses. -/
private theorem mem_boundaryKinds {kind : String} :
    kind ∈ boundaryKinds ↔ kind ∈ nestedCallableKinds ∨ kind = "finally_clause" := by
  rw [boundaryKinds, List.mem_append, List.mem_singleton]

/-- The innermost boundary around a position inside a finally clause is itself a finally clause. -/
theorem IsInsideFinally.exists_isNearest {root : Node} {place : List Nat}
    (h : IsInsideFinally root place) :
    ∃ depth clause, IsNearest boundaryKinds root place depth clause ∧
      clause.kind = "finally_clause" := by
  obtain ⟨depth, clause, hlt, hat, hkind, hclear⟩ := h
  obtain ⟨depth', clause', hle, hnear⟩ :=
    Node.exists_isNearest hlt hat (mem_boundaryKinds.2 (.inr hkind))
  refine ⟨depth', clause', hnear, ?_⟩
  rcases Nat.eq_or_lt_of_le hle with rfl | hinner
  · have hsame := hnear.at_depth
    rw [hat, Option.some.injEq] at hsame
    rw [← hsame]
    exact hkind
  · -- a callable further in would stand between the first clause and the position
    have hnot := hclear depth' hinner hnear.depth_lt clause' hnear.at_depth
    exact (mem_boundaryKinds.1 hnear.kind_mem).resolve_left hnot

/-- What has a finally clause as its innermost boundary is inside it. -/
private theorem isInsideFinally_of_isNearest {root clause : Node} {place : List Nat}
    {depth : Nat} (h : IsNearest boundaryKinds root place depth clause)
    (hkind : clause.kind = "finally_clause") : IsInsideFinally root place := by
  refine ⟨depth, clause, h.depth_lt, h.at_depth, hkind, ?_⟩
  intro k hk hlt m hm hnested
  exact h.innermost k hk hlt m hm (mem_boundaryKinds.2 (.inl hnested))

/-- The reported positions are those of the right statements inside finally clauses. -/
private theorem mem_spread_placesAt {exit : FinallyExit} {root s : Node} {place : List Nat}
    (hblocks : HasFinallyBlocks root) (hat : root.at? place = some s) :
    place ∈ root.spread exit.placesAt ↔ s.kind = exit.statementKind ∧ IsInsideFinally root place := by
  rw [Node.mem_spread]
  constructor
  · rintro ⟨above, clause, below, habove, hmem, rfl⟩
    -- a statement that is found from a clause has it as its innermost boundary
    obtain ⟨hkind, s', hfound⟩ := mem_placesAt.1 hmem
    obtain ⟨hat', hs, -⟩ := mem_statementsAt.1 hfound
    rw [Node.at?_append, habove, Option.bind_some, hat', Option.some.injEq] at hat
    rw [← hat]
    have hnear := (Node.isNearest_append_iff habove).2 (isClear_of_mem_placesAt hmem)
    exact ⟨hs, isInsideFinally_of_isNearest hnear hkind⟩
  · rintro ⟨hs, hinside⟩
    -- the innermost boundary is a clause, from which the statement is found
    obtain ⟨depth, clause, hnear, hkind⟩ := hinside.exists_isNearest
    obtain ⟨below, hsplit, hne, -, hclear⟩ := hnear.exists_append
    have hbelow : clause.at? below = some s := by
      rw [hsplit, Node.at?_append, hnear.at_depth] at hat
      exact hat
    refine ⟨place.take depth, clause, below, hnear.at_depth, ?_, hsplit⟩
    refine mem_placesAt.2 ⟨hkind, s, mem_statementsAt.2 ⟨hbelow, hs, hne, hclear, ?_⟩⟩
    -- whatever child of the clause the statement stands in is a block
    obtain ⟨i, rest, rfl⟩ := List.exists_cons_of_ne_nil hne
    rw [Node.at?_cons] at hbelow
    obtain ⟨block, hchild, -⟩ := Option.bind_eq_some_iff.1 hbelow
    have hclause : clause ∈ root.walk := by
      rw [← Node.map_snd_located]
      exact List.mem_map.2 ⟨_, Node.mem_located.2 hnear.at_depth, rfl⟩
    exact ⟨i, block, rfl, hchild, hblocks clause hclause hkind block (List.mem_of_getElem? hchild)⟩

/-- The shipped rule that looks for this way of leaving a finally block. -/
def rule : FinallyExit → Rule
  | .byReturn => .returnFromFinallyBlock
  | .byThrow => .throwFromFinallyBlock

/-- Both rules on finally blocks never fail. Where finally clauses hold blocks only, the candidates of such
    a rule are on pairwise different nodes, and these are the statements of its kind that some finally
    clause encloses with no callable in between. -/
theorem apply_reports_inside (exit : FinallyExit) (u : SourceUnit) (properties : Properties)
    (hblocks : HasFinallyBlocks u.root) :
    ∃ (candidates : List Candidate) (places : List (List Nat)),
      Rule.apply { exit.rule with properties } u = .ok candidates ∧
      candidates.map (·.node?) = places.map u.root.at? ∧ places.Nodup ∧
      (∀ place ∈ places, (u.root.at? place).isSome) ∧
      ∀ place s, u.root.at? place = some s →
        (place ∈ places ↔ s.kind = exit.statementKind ∧ IsInsideFinally u.root place) := by
  have hrespond : (exit.rule).detector.respond u.source = exit.respond := by
    cases exit <;> rfl
  obtain ⟨candidates, happly, hnodes⟩ := Rule.exists_apply_eq_ok { exit.rule with properties } u
    hrespond exit.respond_descends exit.nodes_respond
  refine ⟨candidates, u.root.spread exit.placesAt, happly, hnodes, ?_, ?_, ?_⟩
  · -- a statement is reported from its innermost clause only
    exact Node.nodup_spread exit.nodup_placesAt (fun _ _ => isClear_of_mem_placesAt) u.root
  · intro place hplace
    obtain ⟨above, clause, below, habove, hmem, rfl⟩ := Node.mem_spread.1 hplace
    obtain ⟨-, s, hfound⟩ := mem_placesAt.1 hmem
    rw [Node.at?_append, habove, Option.bind_some, (mem_statementsAt.1 hfound).1]
    rfl
  · intro place s hat
    exact mem_spread_placesAt hblocks hat

/-- A finally block with a try statement whose own finally block returns, a lambda that returns, and a
    return of its own. -/
def nestedFinally : SourceUnit :=
  let span : Span := ⟨0, 0, 0, 0, 0, 0⟩
  let leave : List Nat → Node := fun place => ⟨"return_statement", none, span, place, []⟩
  ⟨"A.java", [], ⟨"program", none, span, [], [⟨"finally_clause", none, span, [0],
    [⟨"block", none, span, [0, 0],
      [⟨"try_statement", none, span, [0, 0, 0], [⟨"finally_clause", none, span, [0, 0, 0, 0],
          [⟨"block", none, span, [0, 0, 0, 0, 0], [leave [0, 0, 0, 0, 0, 0]]⟩]⟩]⟩,
        ⟨"lambda_expression", none, span, [0, 0, 1],
          [⟨"block", some "body", span, [0, 0, 1, 0], [leave [0, 0, 1, 0, 0]]⟩]⟩,
        leave [0, 0, 2]]⟩]⟩]⟩⟩

/-- The returns of both finally blocks are reported, and that of the lambda is not. -/
theorem apply_reports_inside_nestedFinally :
    HasFinallyBlocks nestedFinally.root ∧
      ∃ (candidates : List Candidate) (places : List (List Nat)),
        Rule.returnFromFinallyBlock.apply nestedFinally = .ok candidates ∧
        candidates.map (·.node?) = places.map nestedFinally.root.at? ∧ places.Nodup ∧
        [0, 0, 0, 0, 0, 0] ∈ places ∧ [0, 0, 2] ∈ places ∧ [0, 0, 1, 0, 0] ∉ places := by
  have hblocks : HasFinallyBlocks nestedFinally.root := by
    simp [HasFinallyBlocks, nestedFinally, Node.walk, Node.walkAll]
  obtain ⟨candidates, places, happly, hnodes, hnodup, -, hiff⟩ :=
    apply_reports_inside .byReturn nestedFinally {} hblocks
  refine ⟨hblocks, candidates, places, happly, hnodes, hnodup, ?_, ?_, ?_⟩
  · refine (hiff _ _ rfl).2 ⟨rfl, 4, _, by decide, rfl, rfl, ?_⟩
    intro k hk hlt m hm
    obtain rfl : k = 5 := by simp at hlt; omega
    rw [← Option.some.inj hm]
    decide
  · refine (hiff _ _ rfl).2 ⟨rfl, 1, _, by decide, rfl, rfl, ?_⟩
    intro k hk hlt m hm
    obtain rfl : k = 2 := by simp at hlt; omega
    rw [← Option.some.inj hm]
    decide
  · intro hmem
    obtain ⟨-, depth, clause, hlt, hat, hkind, hclear⟩ := (hiff _ _ rfl).1 hmem
    -- the lambda stands between the clause and the statement, and below it there is no clause
    by_cases hdepth : depth < 3
    · exact hclear 3 hdepth (by decide) _ rfl (by decide)
    · obtain rfl | rfl : depth = 3 ∨ depth = 4 := by simp at hlt; omega
      all_goals
        rw [← Option.some.inj hat] at hkind
        exact absurd hkind (by decide)

end JavaLint.FinallyExit
