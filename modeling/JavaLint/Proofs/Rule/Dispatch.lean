import JavaLint.Proofs.Rule.Visits
import JavaLint.Proofs.Syntax.DocumentOrder
import JavaLint.Violation

/-!
# Visits with handlers

A rule may be given by a table of handlers, one per kind of node. Its visit meets the nodes that have no handler
above them that stops it. What the rule finds is put together from what the handlers find at these nodes, in
document order, and the first failure among them is the failure of the rule.

- `Handler.forKind?`, `Handler.respondBy_eq`: the handler that answers, and its answer
- `Handler.lists_reached`: the nodes that a visit with handlers meets
- `Rule.apply_dispatches`: the candidates of a rule that is given by handlers
-/

namespace JavaLint

/-! ## Tables of handlers -/

namespace Handler

/-- What the handler finds at a node of its kind. -/
def findingsAt (handler : Handler) (n : Node) : List Finding :=
  match handler.action with
  | .flagNode => [⟨some n, handler.message⟩]
  | .flagFile => [⟨none, handler.message⟩]
  | .ignore | .fail => []

/-- The failure of the handler, if it is one that fails. -/
def fault? (handler : Handler) : Option VisitFault :=
  if handler.action = .fail then some ⟨handler.message⟩ else none

/-- A handler answers with what it finds, its failure, and whether to go on. -/
private theorem respond_eq (handler : Handler) (n : Node) :
    handler.respond n = ⟨⟨handler.findingsAt n, handler.fault?⟩, handler.descends⟩ := by
  obtain ⟨kind, action, message, descends⟩ := handler
  cases action <;> rfl

/-- The handler of a kind of node: the last one that the table has for it. -/
def forKind? (table : List Handler) (kind : String) : Option Handler :=
  table.reverse.find? (·.kind == kind)

/-- No node above the position has a handler that keeps the visit from going on. -/
def Reaches (table : List Handler) (root : Node) (place : List Nat) : Prop :=
  ∀ k < place.length, ∀ m, root.at? (place.take k) = some m →
    ∀ handler, forKind? table m.kind = some handler → handler.descends = true

/-- The visit goes on below the node. -/
def goesBelow (table : List Handler) (n : Node) : Bool :=
  (forKind? table n.kind).all (·.descends)

/-- The answer at a node is that of the handler for its kind; without one, the visit goes on. -/
theorem respondBy_eq (table : List Handler) (n : Node) :
    Detector.respondBy table n =
      ⟨⟨(forKind? table n.kind).elim [] (·.findingsAt n), (forKind? table n.kind).bind fault?⟩,
        goesBelow table n⟩ := by
  rw [Detector.respondBy, goesBelow, forKind?]
  cases table.reverse.find? (·.kind == n.kind) with
  | none => rfl
  | some handler => exact respond_eq handler n

/-- The nodes that a visit with the table meets are those with no handler above them that stops it. -/
theorem lists_reached (table : List Handler) (root : Node) :
    root.Lists (fun place _ => Reaches table root place) (root.reached (goesBelow table)) := by
  refine Node.lists_filter fun place n _ => ?_
  simp only [Node.isOpenTo_iff, Reaches, goesBelow, Option.all_eq_true]

end Handler

namespace Rule

/-- A rule whose visit is made up of several fails with the first failure among them, and otherwise has all of
    their candidates. -/
private theorem apply_of_scan_eq_concat {rule : Rule} {u : SourceUnit} {scans : List Scan}
    (h : rule.scan u = Scan.concat scans) :
    rule.apply u = match scans.findSome? (·.fault) with
      | some fault => .error fault
      | none => .ok (scans.flatMap fun scan => scan.findings.map (rule.candidate u)) := by
  rw [apply, h]
  simp only [Scan.fault_concat]
  cases hfirst : scans.findSome? (·.fault) with
  | some fault => rfl
  | none =>
    have hclean : ∀ scan ∈ scans, scan.fault = none := List.findSome?_eq_none_iff.1 hfirst
    simp only [Scan.concat_of_fault_eq_none hclean, List.map_flatMap]

/-- A rule that is given by a table of handlers visits the nodes that have no handler above them that stops it,
    each once and in document order: whatever is answered there, the visit is made up of these answers. If one of
    the handlers asked fails, the first failure is that of the rule. Otherwise the candidates are those of the
    handlers, one after another. -/
theorem apply_dispatches (rule : Rule) (table : List Handler) (htable : rule.detector = .handlers table)
    (u : SourceUnit) :
    ∃ reached, u.root.Lists (fun place _ => Handler.Reaches table u.root place) reached ∧
      (∀ respond : Node → Response, (∀ n, (respond n).descends = (Detector.respondBy table n).descends) →
        u.root.visit respond = Scan.concat (reached.map fun x => (respond x.2).scan)) ∧
      rule.apply u =
        match reached.findSome? fun x => (Handler.forKind? table x.2.kind).bind (·.fault?) with
        | some fault => .error fault
        | none => .ok (reached.flatMap fun x =>
            ((Handler.forKind? table x.2.kind).elim [] (·.findingsAt x.2)).map (rule.candidate u)) := by
  -- where the visit goes on depends on the table alone
  have hbelow : ∀ n, (Detector.respondBy table n).descends = Handler.goesBelow table n := by
    intro n
    rw [Handler.respondBy_eq]
  refine ⟨u.root.reached (Handler.goesBelow table), Handler.lists_reached table u.root, ?_, ?_⟩
  · intro respond hrespond
    exact Node.visit_eq_concat (fun n => (hrespond n).trans (hbelow n)) u.root
  · have hscan : rule.scan u = Scan.concat ((u.root.reached (Handler.goesBelow table)).map fun x =>
        (Detector.respondBy table x.2).scan) := by
      rw [scan, htable]
      exact Node.visit_eq_concat hbelow u.root
    rw [apply_of_scan_eq_concat hscan, List.findSome?_map, List.flatMap_map]
    simp only [Function.comp_def, Handler.respondBy_eq]

end Rule

/-- Handlers of which one is replaced by a later one, and one stops the visit. -/
def mixedHandlers : List Handler :=
  [⟨"block", .fail, some "replaced", false⟩, ⟨"class_body", .flagNode, some "body", true⟩,
    ⟨"lambda_expression", .flagFile, none, false⟩, ⟨"block", .ignore, none, true⟩]

/-- A class body in a class body, the inner one with a lambda that holds a third, and a block with a fourth. -/
def nestedBodies : SourceUnit :=
  let span : Span := ⟨0, 0, 0, 0, 0, 0⟩
  ⟨"A.java", [], ⟨"class_body", none, span, [],
    [⟨"class_body", none, span, [0], [⟨"lambda_expression", none, span, [0, 0],
        [⟨"class_body", none, span, [0, 0, 0], []⟩]⟩]⟩,
      ⟨"block", none, span, [1], [⟨"class_body", none, span, [1, 0], []⟩]⟩]⟩⟩

/-- The visit goes on below the block, whose first handler is replaced, and not below the lambda. -/
theorem apply_dispatches_nestedBodies :
    let rule : Rule := ⟨"StubRule", "Mixed", .handlers mixedHandlers, {}⟩
    rule.detector = .handlers mixedHandlers ∧
      ∃ reached, nestedBodies.root.Lists
          (fun place _ => Handler.Reaches mixedHandlers nestedBodies.root place) reached ∧
        rule.apply nestedBodies = .ok (reached.flatMap fun x =>
          ((Handler.forKind? mixedHandlers x.2.kind).elim [] (·.findingsAt x.2)).map (rule.candidate nestedBodies)) ∧
        [1, 0] ∈ reached.map Prod.fst ∧ [0, 0, 0] ∉ reached.map Prod.fst := by
  intro rule
  obtain ⟨reached, hlists, -, happly⟩ := Rule.apply_dispatches rule mixedHandlers rfl nestedBodies
  -- the one handler that fails is replaced, so that no node is answered by it
  have hclean : ∀ kind, (Handler.forKind? mixedHandlers kind).bind (·.fault?) = none := by
    intro kind
    simp only [Handler.forKind?, mixedHandlers, List.reverse_cons, List.reverse_nil, List.nil_append,
      List.cons_append, List.find?_cons, List.find?_nil]
    grind [Handler.fault?]
  have hfirst : (reached.findSome? fun x => (Handler.forKind? mixedHandlers x.2.kind).bind (·.fault?)) = none :=
    List.findSome?_eq_none_iff.2 fun x _ => hclean x.2.kind
  rw [hfirst] at happly
  refine ⟨rfl, reached, hlists, happly, ?_, ?_⟩
  · refine List.mem_map.2 ⟨_, (hlists.mem_iff [1, 0] _).2 ⟨rfl, ?_⟩, rfl⟩
    intro k hk m hm handler hhandler
    obtain rfl | rfl : k = 0 ∨ k = 1 := by simp at hk; omega
    all_goals
      rw [← Option.some.inj hm] at hhandler
      rw [← Option.some.inj hhandler]
  · intro hmem
    obtain ⟨⟨place, n⟩, hin, rfl⟩ := List.mem_map.1 hmem
    have hdescends := ((hlists.mem_iff _ n).1 hin).2 2 (by decide) _ rfl _ rfl
    exact absurd hdescends (by decide)

end JavaLint
