import JavaLint.Proofs.Rule.Findings

/-!
# Null returns belong to their own callable

The rule on boolean callables looks at every method and lambda of a tree, and from each of them searches its
body for exits. However callables are nested, an exit is reported for the innermost callable around it,
for no other, and only once; and what a nested callable returns does not make the outer one boolean.

- `IsExit`: the exits of a callable, by their position below it
- `IsBoolean`: the callable counts as boolean
- `mem_placesAt`: what is reported at one callable
- `apply_reports`: what is reported in a tree
-/

namespace JavaLint.BooleanReturnsNull

open Node (nestedCallableKinds IsNearest)

/-! ## The exits of a callable -/

/-- The body of a callable, which is its first child in that role, and the index of the body. -/
def bodyAt? (callable : Node) : Option (Node × Nat) :=
  callable.children.zipIdx.find? (·.1.role == some "body")

/-- The body is the child in that role. -/
private theorem child?_body (callable : Node) : callable.child? "body" = (bodyAt? callable).map Prod.fst := by
  rw [Node.child?, bodyAt?]
  conv => lhs; rw [← List.zipIdx_map_fst 0 callable.children, List.find?_map]
  rfl

/-- The body stands at its index. -/
private theorem children_of_bodyAt? {callable body : Node} {index : Nat}
    (h : bodyAt? callable = some (body, index)) : callable.children[index]? = some body :=
  List.mk_mem_zipIdx_iff_getElem?.1 (List.mem_of_find?_eq_some h)

/-- A statement below a callable is one of its exits: a return statement in its block body that is not
    inside a nested callable, or the body itself if it is an expression. The value is what it returns. -/
def IsExit (callable : Node) (below : List Nat) (statement : Node) (value : Option Node) : Prop :=
  ∃ body index, bodyAt? callable = some (body, index) ∧
    ((body.kind = "block" ∧ ∃ rest, below = index :: rest ∧ rest ≠ [] ∧
        body.at? rest = some statement ∧ statement.kind = "return_statement" ∧
        (∀ k, 0 < k → k < rest.length → ∀ m, body.at? (rest.take k) = some m →
          m.kind ∉ nestedCallableKinds) ∧
        value = statement.children.head?) ∨
      (body.kind ≠ "block" ∧ below = [index] ∧ statement = body ∧ value = some body))

/-- The exits of a callable with their positions below it. -/
def exitsAt (callable : Node) : List (List Nat × Node × Option Node) :=
  match bodyAt? callable with
  | none => []
  | some (body, index) =>
    if body.kind == "block" then
      (body.collectLocated ["return_statement"] nestedCallableKinds).map fun x =>
        (index :: x.1, x.2, x.2.children.head?)
    else [([index], body, some body)]

/-- These are the exits that the rule looks at. -/
private theorem map_snd_exitsAt (callable : Node) : (exitsAt callable).map Prod.snd = exits callable := by
  rw [exitsAt, exits, child?_body]
  cases bodyAt? callable with
  | none => rfl
  | some found =>
    obtain ⟨body, index⟩ := found
    simp only [Option.map_some, Node.exitPoints]
    -- the body is a block with returns in it, or an expression
    split
    · rw [Node.returns, Node.collect_eq_map_collectLocated, List.map_map, List.map_map]
      rfl
    · rfl

/-- The list holds the exits of the callable and nothing else. -/
private theorem mem_exitsAt {callable statement : Node} {below : List Nat} {value : Option Node} :
    (below, statement, value) ∈ exitsAt callable ↔ IsExit callable below statement value := by
  rw [exitsAt, IsExit]
  cases bodyAt? callable with
  | none => simp
  | some found =>
    obtain ⟨body, index⟩ := found
    simp only [Option.some.injEq, Prod.mk.injEq, ← Node.isClear_iff]
    -- a block is searched, and any other body is its own exit
    by_cases hblock : body.kind = "block"
    · rw [if_pos (beq_iff_eq.2 hblock)]
      constructor
      · intro hmem
        obtain ⟨⟨rest, s⟩, hfound, heq⟩ := List.mem_map.1 hmem
        obtain ⟨hat, hne, hkind, hclear⟩ := Node.mem_collectLocated.1 hfound
        simp only [Prod.mk.injEq] at heq
        obtain ⟨rfl, rfl, rfl⟩ := heq
        exact ⟨body, index, ⟨rfl, rfl⟩,
          .inl ⟨hblock, rest, rfl, hne, hat, List.mem_singleton.1 hkind, hclear, rfl⟩⟩
      · rintro ⟨_, _, ⟨rfl, rfl⟩, ⟨-, rest, rfl, hne, hat, hkind, hclear, rfl⟩ | ⟨hnot, -⟩⟩
        · refine List.mem_map.2 ⟨(rest, statement), ?_, rfl⟩
          exact Node.mem_collectLocated.2 ⟨hat, hne, List.mem_singleton.2 hkind, hclear⟩
        · exact absurd hblock hnot
    · rw [if_neg (by simpa using hblock), List.mem_singleton]
      simp only [Prod.mk.injEq]
      constructor
      · rintro ⟨rfl, rfl, rfl⟩
        exact ⟨statement, index, ⟨rfl, rfl⟩, .inr ⟨hblock, rfl, rfl, rfl⟩⟩
      · rintro ⟨_, _, ⟨rfl, rfl⟩, ⟨hyes, -⟩ | ⟨-, rfl, rfl, rfl⟩⟩
        · exact absurd hyes hblock
        · exact ⟨rfl, rfl, rfl⟩

/-- The statement of an exit stands at its position. -/
private theorem IsExit.at? {callable statement : Node} {below : List Nat} {value : Option Node}
    (h : IsExit callable below statement value) : callable.at? below = some statement := by
  obtain ⟨body, index, hbody, ⟨-, rest, rfl, -, hat, -⟩ | ⟨-, rfl, rfl, -⟩⟩ := h
  · rw [Node.at?_cons, children_of_bodyAt? hbody]
    exact hat
  · rw [Node.at?_cons, children_of_bodyAt? hbody]
    rfl

/-- No callable stands between a callable and its exits: a block is none itself. -/
private theorem IsExit.isClear {callable statement : Node} {below : List Nat} {value : Option Node}
    (h : IsExit callable below statement value) :
    below ≠ [] ∧ callable.isClear nestedCallableKinds below = true := by
  obtain ⟨body, index, hbody, ⟨hblock, rest, rfl, -, -, -, hclear, -⟩ | ⟨-, rfl, -, -⟩⟩ := h
  · refine ⟨List.cons_ne_nil _ _, ?_⟩
    -- the body is a block, and from there on nothing is in between
    rw [Node.isClear, children_of_bodyAt? hbody, Option.all_some, hblock, Node.isClear_iff.2 hclear]
    simp [nestedCallableKinds]
  · exact ⟨List.cons_ne_nil _ _, rfl⟩

/-- No exit is listed twice. -/
private theorem nodup_exitsAt (callable : Node) : ((exitsAt callable).map Prod.fst).Nodup := by
  rw [exitsAt]
  cases bodyAt? callable with
  | none => exact List.nodup_nil
  | some found =>
    obtain ⟨body, index⟩ := found
    simp only
    split
    · have hnodup := body.nodup_collectLocated ["return_statement"] nestedCallableKinds
      -- the positions below the body all start with its index
      have hmap := hnodup.map (List.cons_injective (a := index))
      rw [List.map_map] at hmap ⊢
      exact hmap
    · exact List.nodup_singleton _

/-! ## What is reported at one callable -/

/-- The callable counts as boolean: it is a method that is declared so, or one of its own exits yields a
    boolean expression. -/
def IsBoolean (source : Bytes) (callable : Node) : Prop :=
  (callable.kind = "method_declaration" ∧ isBooleanType source (callable.child? "type") = true) ∨
    ∃ below statement value, IsExit callable below statement (some value) ∧
      isBooleanExpression source value = true

/-- The node is of a kind that the rule looks at. -/
def IsMethodOrLambda (n : Node) : Prop :=
  n.kind = "method_declaration" ∨ n.kind = "lambda_expression"

/-- Methods and lambdas are among the kinds that keep their exits to themselves. -/
private theorem IsMethodOrLambda.mem_nestedCallableKinds {n : Node} (h : IsMethodOrLambda n) :
    n.kind ∈ nestedCallableKinds := by
  rcases h with h | h <;> rw [h] <;> decide

/-- The rule reports at this node. -/
def isReporting (source : Bytes) (n : Node) : Bool :=
  (n.kind == "method_declaration" &&
    (isBooleanType source (n.child? "type") || anyBoolean source (exits n))) ||
  (n.kind == "lambda_expression" && anyBoolean source (exits n))

/-- The rule looks for a boolean expression among the values of the exits. -/
private theorem anyBoolean_exits {source : Bytes} {callable : Node} :
    anyBoolean source (exits callable) = true ↔
      ∃ below statement value, IsExit callable below statement (some value) ∧
        isBooleanExpression source value = true := by
  rw [anyBoolean, ← map_snd_exitsAt, List.any_map, List.any_eq_true]
  constructor
  · intro h
    obtain ⟨⟨below, statement, value?⟩, hmem, hany⟩ := h
    -- a return without a value is not boolean
    obtain ⟨value, hvalue, hboolean⟩ := (Option.any_eq_true _ _).1 hany
    have hexit := mem_exitsAt.1 hmem
    rw [show value? = some value from hvalue] at hexit
    exact ⟨below, statement, value, hexit, hboolean⟩
  · intro h
    obtain ⟨below, statement, value, hexit, hboolean⟩ := h
    exact ⟨(below, statement, some value), mem_exitsAt.2 hexit, hboolean⟩

/-- The rule reports at the methods and lambdas that count as boolean. -/
private theorem isReporting_iff {source : Bytes} {n : Node} :
    isReporting source n = true ↔ IsMethodOrLambda n ∧ IsBoolean source n := by
  simp only [isReporting, IsMethodOrLambda, IsBoolean, Bool.or_eq_true, Bool.and_eq_true, beq_iff_eq,
    anyBoolean_exits]
  grind

/-- The positions below a node that the rule reports when it looks at the node. -/
def placesAt (source : Bytes) (n : Node) : List (List Nat) :=
  if isReporting source n then
    ((exitsAt n).filter fun x => isNullReturn source x.2.2).map Prod.fst
  else []

/-- What is reported at one node: the exits of a boolean callable that return null. -/
theorem mem_placesAt {source : Bytes} {n : Node} {below : List Nat} :
    below ∈ placesAt source n ↔ (IsMethodOrLambda n ∧ IsBoolean source n) ∧
      ∃ statement value, IsExit n below statement value ∧ isNullReturn source value = true := by
  rw [placesAt, ← isReporting_iff]
  by_cases hreport : isReporting source n = true
  · rw [if_pos hreport]
    simp only [List.mem_map, List.mem_filter, Prod.exists, mem_exitsAt, exists_and_right,
      exists_eq_right, hreport, true_and]
  · rw [if_neg hreport]
    simp [hreport]

/-- Nothing is reported twice at one node. -/
private theorem nodup_placesAt (source : Bytes) (n : Node) : (placesAt source n).Nodup := by
  rw [placesAt]
  split
  · exact (nodup_exitsAt n).sublist (List.filter_sublist.map Prod.fst)
  · exact List.nodup_nil

/-- What a node reports can be reached from it without meeting another callable. -/
private theorem isClear_of_mem_placesAt {source : Bytes} {n : Node} {below : List Nat}
    (h : below ∈ placesAt source n) :
    below ≠ [] ∧ n.kind ∈ nestedCallableKinds ∧ n.isClear nestedCallableKinds below = true := by
  obtain ⟨⟨hkind, -⟩, statement, value, hexit, -⟩ := mem_placesAt.1 h
  obtain ⟨hne, hclear⟩ := hexit.isClear
  exact ⟨hne, hkind.mem_nestedCallableKinds, hclear⟩

/-- The null returns of a callable, by their positions. -/
private theorem nodes_nullReturns (source : Bytes) (message : String) (callable : Node) :
    (nullReturns source message (exits callable)).map (·.node?) =
      (((exitsAt callable).filter fun x => isNullReturn source x.2.2).map Prod.fst).map callable.at? := by
  rw [nullReturns, ← map_snd_exitsAt, List.filter_map, List.map_map, List.map_map, List.map_map]
  refine List.map_congr_left fun x hx => ?_
  have hexit := mem_exitsAt.1 (List.mem_of_mem_filter hx)
  exact hexit.at?.symm

/-- What the rule finds at a node are the nodes at the positions it reports. -/
private theorem nodes_respond (source : Bytes) (n : Node) :
    (respond source n).scan.findings.map (·.node?) = (placesAt source n).map n.at? := by
  rw [respond, placesAt, isReporting]
  -- methods and lambdas are answered alike, but for the declared type of a method
  by_cases hm : n.kind = "method_declaration"
  · by_cases hb : (isBooleanType source (n.child? "type") || anyBoolean source (exits n)) = true
    · simp only [hm, hb, beq_self_eq_true, if_true, Bool.and_true, Bool.true_or]
      exact nodes_nullReturns source _ n
    · simp [hm, hb, Response.pass, Scan.empty]
  · by_cases hl : n.kind = "lambda_expression"
    · by_cases hb : anyBoolean source (exits n) = true
      · simp only [hl, hb, beq_self_eq_true, if_true, Bool.and_true, Bool.or_true]
        exact nodes_nullReturns source _ n
      · simp [hl, hb, Response.pass, Scan.empty]
    · simp [hm, hl, Response.pass, Scan.empty]

/-- The rule never fails and looks at every node. -/
theorem respond_descends (source : Bytes) (n : Node) :
    (respond source n).descends = true ∧ (respond source n).scan.fault = none := by
  rw [respond]
  split
  · split <;> exact ⟨rfl, rfl⟩
  · split
    · split <;> exact ⟨rfl, rfl⟩
    · exact ⟨rfl, rfl⟩

/-! ## What is reported in a tree -/

/-- A return statement that is to be reported: it lies in the block body of the innermost callable around
    it, which is a boolean method or lambda, and it returns nothing or null. -/
def IsNullReturnOf (source : Bytes) (root : Node) (place : List Nat) (statement : Node) : Prop :=
  ∃ depth callable body index, IsNearest nestedCallableKinds root place depth callable ∧
    IsMethodOrLambda callable ∧ bodyAt? callable = some (body, index) ∧ body.kind = "block" ∧
    place[depth]? = some index ∧ depth + 1 < place.length ∧ IsBoolean source callable ∧
    ∀ value, statement.children.head? = some value → isNullReturn source (some value) = true

/-- An expression that is to be reported: it is the whole body of a boolean method or lambda, and null. -/
def IsNullBodyOf (source : Bytes) (root : Node) (place : List Nat) (body : Node) : Prop :=
  ∃ above callable index, place = above ++ [index] ∧ root.at? above = some callable ∧
    IsMethodOrLambda callable ∧ bodyAt? callable = some (body, index) ∧ body.kind ≠ "block" ∧
    IsBoolean source callable ∧ isNullReturn source (some body) = true

/-- A return without a value counts as null. -/
private theorem isNullReturn_iff {source : Bytes} {value? : Option Node} :
    isNullReturn source value? = true ↔
      ∀ value, value? = some value → isNullReturn source (some value) = true := by
  cases value? with
  | none => simp [isNullReturn]
  | some value => simp

/-- A return statement is not an expression, so it is no null value itself. -/
private theorem isNullReturn_return_statement {source : Bytes} {n : Node} (h : n.kind = "return_statement") :
    isNullReturn source (some n) = false := by
  have hunwrap : n.unwrapParentheses = n := by
    obtain ⟨kind, role, span, place, children⟩ := n
    simp only at h
    subst h
    cases children <;> simp [Node.unwrapParentheses]
  simp [isNullReturn, hunwrap, h]

/-- The exits in a block body, seen from the root: their innermost callable is the one whose body it is. -/
private theorem isExit_block_iff {root callable body statement : Node} {above below : List Nat} {index : Nat}
    (hat : root.at? above = some callable) (hkind : callable.kind ∈ nestedCallableKinds)
    (hbody : bodyAt? callable = some (body, index)) (hblock : body.kind = "block")
    (hstatement : callable.at? below = some statement) (hreturn : statement.kind = "return_statement") :
    IsExit callable below statement statement.children.head? ↔
      IsNearest nestedCallableKinds root (above ++ below) above.length callable ∧
        below[0]? = some index ∧ 1 < below.length := by
  rw [Node.isNearest_append_iff hat]
  constructor
  · intro hexit
    -- an exit that is the body itself would not be in a block
    obtain ⟨hne, hclear⟩ := hexit.isClear
    obtain ⟨body', index', hbody', ⟨-, rest, rfl, hrest, -⟩ | ⟨hnot, -⟩⟩ := hexit
    · rw [hbody] at hbody'
      obtain ⟨rfl, rfl⟩ := Prod.mk.inj (Option.some.inj hbody')
      have hpos := List.length_pos_iff.2 hrest
      exact ⟨⟨hne, hkind, hclear⟩, rfl, by rw [List.length_cons]; omega⟩
    · rw [hbody] at hbody'
      obtain ⟨rfl, -⟩ := Prod.mk.inj (Option.some.inj hbody')
      exact absurd hblock hnot
  · intro h
    obtain ⟨⟨-, -, hclear⟩, hhead, hlength⟩ := h
    cases below with
    | nil => simp at hhead
    | cons i rest =>
      obtain rfl : i = index := by simpa using hhead
      have hrest : rest ≠ [] := by
        intro hnil
        simp [hnil] at hlength
      have hchild := children_of_bodyAt? hbody
      rw [Node.at?_cons, hchild] at hstatement
      refine ⟨body, i, hbody, .inl ⟨hblock, rest, rfl, hrest, hstatement, hreturn, ?_, rfl⟩⟩
      -- what is clear below the callable is clear below its body, one step further down
      intro k hk hklt m hm
      refine Node.isClear_iff.1 hclear (k + 1) (by omega) ?_ m ?_
      · rw [List.length_cons]
        omega
      · rw [List.take_succ_cons, Node.at?_cons, hchild]
        exact hm

/-- A return statement is reported exactly if it returns null from a boolean callable of its own. -/
private theorem isNullReturnOf_iff {source : Bytes} {root statement : Node} {place : List Nat}
    (hat : root.at? place = some statement) (hreturn : statement.kind = "return_statement") :
    IsNullReturnOf source root place statement ↔ place ∈ root.spread (placesAt source) := by
  rw [Node.mem_spread]
  constructor
  · intro h
    obtain ⟨depth, callable, body, index, hnear, hkind, hbody, hblock, hindex, hdepth, hboolean, hnull⟩ := h
    -- the position is cut at the callable, which then finds the rest of it among its own exits
    have hsplit : place.take depth ++ place.drop depth = place := List.take_append_drop depth place
    have hlength : (place.take depth).length = depth := by
      rw [List.length_take]
      omega
    have hbelow : callable.at? (place.drop depth) = some statement := by
      rw [← hsplit, Node.at?_append, hnear.at_depth] at hat
      exact hat
    refine ⟨place.take depth, callable, place.drop depth, hnear.at_depth, ?_, hsplit.symm⟩
    refine mem_placesAt.2 ⟨⟨hkind, hboolean⟩, statement, _, ?_, isNullReturn_iff.2 hnull⟩
    refine (isExit_block_iff hnear.at_depth hnear.kind_mem hbody hblock hbelow hreturn).2 ⟨?_, ?_, ?_⟩
    · rw [hsplit, hlength]
      exact hnear
    · rw [List.getElem?_drop]
      exact hindex
    · rw [List.length_drop]
      omega
  · intro h
    obtain ⟨above, callable, below, habove, hmem, rfl⟩ := h
    obtain ⟨⟨hkind, hboolean⟩, exit, value, hexit, hnull⟩ := mem_placesAt.1 hmem
    rw [Node.at?_append, habove] at hat
    obtain rfl : exit = statement := Option.some.inj (hexit.at?.symm.trans hat)
    have hexit' := hexit
    obtain ⟨body, index, hbody, ⟨hblock, rest, -, -, -, -, -, rfl⟩ | ⟨-, -, rfl, rfl⟩⟩ := hexit'
    · -- the exit is in a block, so the callable is the innermost around it
      have hcallable := hkind.mem_nestedCallableKinds
      obtain ⟨hnear, hindex, hlength⟩ :=
        (isExit_block_iff habove hcallable hbody hblock hat hreturn).1 hexit
      refine ⟨above.length, callable, body, index, hnear, hkind, hbody, hblock, ?_, ?_, hboolean,
        isNullReturn_iff.1 hnull⟩
      · rw [List.getElem?_append_right (Nat.le_refl _), Nat.sub_self]
        exact hindex
      · rw [List.length_append]
        omega
    · -- a return statement in place of an expression body is no null value
      rw [isNullReturn_return_statement hreturn] at hnull
      exact absurd hnull (by decide)

/-- Any other node is reported exactly if it is an expression body that is null, of a boolean callable. -/
private theorem isNullBodyOf_iff {source : Bytes} {root n : Node} {place : List Nat}
    (hat : root.at? place = some n) (hreturn : n.kind ≠ "return_statement") :
    IsNullBodyOf source root place n ↔ place ∈ root.spread (placesAt source) := by
  rw [Node.mem_spread]
  constructor
  · intro h
    obtain ⟨above, callable, index, rfl, habove, hkind, hbody, hblock, hboolean, hnull⟩ := h
    refine ⟨above, callable, [index], habove, ?_, rfl⟩
    exact mem_placesAt.2 ⟨⟨hkind, hboolean⟩, n, some n,
      ⟨n, index, hbody, .inr ⟨hblock, rfl, rfl, rfl⟩⟩, hnull⟩
  · intro h
    -- only an expression body can be an exit and no return statement
    obtain ⟨above, callable, below, habove, hmem, rfl⟩ := h
    obtain ⟨⟨hkind, hboolean⟩, exit, value, hexit, hnull⟩ := mem_placesAt.1 hmem
    rw [Node.at?_append, habove] at hat
    obtain rfl : exit = n := Option.some.inj (hexit.at?.symm.trans hat)
    obtain ⟨body, index, hbody, ⟨-, rest, -, -, -, hkind', -⟩ | ⟨hblock, rfl, rfl, rfl⟩⟩ := hexit
    · exact absurd hkind' hreturn
    · exact ⟨above, callable, index, rfl, habove, hkind, hbody, hblock, hboolean, hnull⟩

/-- The candidates of the rule are at the positions that its callables report. -/
private theorem apply_eq_ok (u : SourceUnit) (rule : Rule) (hrule : rule.detector = .booleanReturnsNull) :
    ∃ candidates, rule.apply u = .ok candidates ∧
      candidates.map (·.node?) = (u.root.spread (placesAt u.source)).map u.root.at? := by
  refine Rule.exists_apply_eq_ok rule u ?_ (respond_descends u.source) (nodes_respond u.source)
  rw [hrule]
  rfl

/-- The rule never fails. Its candidates are on pairwise different nodes, and these are the return
    statements and the expression bodies that return null from a boolean callable of their own. -/
theorem apply_reports (u : SourceUnit) (properties : Properties) :
    ∃ (candidates : List Candidate) (places : List (List Nat)),
      Rule.apply { Rule.booleanMethodReturnsNull with properties } u = .ok candidates ∧
      candidates.map (·.node?) = places.map u.root.at? ∧ places.Nodup ∧
      (∀ place ∈ places, (u.root.at? place).isSome) ∧
      ∀ place n, u.root.at? place = some n →
        (n.kind = "return_statement" →
          (place ∈ places ↔ IsNullReturnOf u.source u.root place n)) ∧
        (n.kind ≠ "return_statement" →
          (place ∈ places ↔ IsNullBodyOf u.source u.root place n)) := by
  obtain ⟨candidates, happly, hnodes⟩ :=
    apply_eq_ok u { Rule.booleanMethodReturnsNull with properties } rfl
  refine ⟨candidates, u.root.spread (placesAt u.source), happly, hnodes, ?_, ?_, ?_⟩
  · -- an exit is reported from its innermost callable only
    exact Node.nodup_spread (nodup_placesAt u.source) (fun _ _ => isClear_of_mem_placesAt) u.root
  · intro place hplace
    obtain ⟨above, callable, below, habove, hmem, rfl⟩ := Node.mem_spread.1 hplace
    obtain ⟨-, statement, value, hexit, -⟩ := mem_placesAt.1 hmem
    rw [Node.at?_append, habove, Option.bind_some, hexit.at?]
    rfl
  · intro place n hat
    exact ⟨fun hreturn => (isNullReturnOf_iff hat hreturn).symm,
      fun hother => (isNullBodyOf_iff hat hother).symm⟩

end JavaLint.BooleanReturnsNull
