import JavaLint.Proofs.Syntax.Position
import JavaLint.Rule.Visit

/-!
# The nodes that a visit meets

A visit asks for a response at each node that it meets, and goes on below the node unless the response says not
to. So it meets the nodes that have no such node above them, and it is made up of the responses there, in document
order and up to the first failure.

- `Scan.concat`: visits one after another, with `fault_concat` and `concat_of_fault_eq_none`
- `Node.isOpenTo`, `Node.reached`: the nodes that a visit meets
- `Node.visit_eq_concat`: a visit is made up of the responses of the nodes it meets
-/

namespace JavaLint

/-! ## Visits one after another -/

namespace Scan

/-- The visits one after another, up to the first failure. -/
def concat (scans : List Scan) : Scan :=
  scans.foldr andThen empty

/-- The first visit, and then the others. -/
private theorem concat_cons (scan : Scan) (rest : List Scan) : concat (scan :: rest) = scan.andThen (concat rest) :=
  rfl

/-- Two rows of visits, one after the other. -/
private theorem concat_append (a b : List Scan) : concat (a ++ b) = (concat a).andThen (concat b) := by
  induction a with
  | nil => rfl
  | cons scan rest ih => rw [List.cons_append, concat_cons, ih, concat_cons, andThen_assoc]

/-- Rows of visits, row by row. -/
private theorem concat_flatMap {α : Type} (scans : α → List Scan) (l : List α) :
    concat (l.flatMap scans) = concat (l.map fun x => concat (scans x)) := by
  induction l with
  | nil => rfl
  | cons x rest ih => rw [List.flatMap_cons, concat_append, ih, List.map_cons, concat_cons]

/-- The failure of the whole is the first failure. -/
theorem fault_concat (scans : List Scan) : (concat scans).fault = scans.findSome? (·.fault) := by
  induction scans with
  | nil => rfl
  | cons scan rest ih =>
    rw [concat_cons, andThen, List.findSome?_cons]
    cases hfault : scan.fault with
    | some fault => exact hfault
    | none => exact ih

/-- Without a failure, everything is found. -/
theorem concat_of_fault_eq_none {scans : List Scan} (h : ∀ scan ∈ scans, scan.fault = none) :
    concat scans = ⟨scans.flatMap (·.findings), none⟩ := by
  induction scans with
  | nil => rfl
  | cons scan rest ih =>
    obtain ⟨hscan, hrest⟩ := List.forall_mem_cons.1 h
    rw [concat_cons, andThen, hscan, ih hrest, List.flatMap_cons]

end Scan

/-! ## The nodes that a visit meets -/

namespace Node

/-- Every node above the position is one that the visit goes on below. -/
def isOpenTo (descends : Node → Bool) : Node → List Nat → Bool
  | _, [] => true
  | n, i :: rest => descends n && n.children[i]?.all (·.isOpenTo descends rest)

/-- The positions above are the initial parts of the position. -/
theorem isOpenTo_iff {descends : Node → Bool} {n : Node} {place : List Nat} :
    n.isOpenTo descends place = true ↔
      ∀ k < place.length, ∀ m, n.at? (place.take k) = some m → descends m = true := by
  induction place generalizing n with
  | nil => simp [isOpenTo]
  | cons i rest ih =>
    rw [isOpenTo, Bool.and_eq_true, Option.all_eq_true]
    constructor
    · rintro ⟨hself, hbelow⟩ k hk m hm
      -- the node itself is above the position, and the others are above it in the child
      cases k with
      | zero =>
        rw [List.take_zero, at?_nil] at hm
        rw [← Option.some.inj hm]
        exact hself
      | succ k =>
        rw [List.take_succ_cons, at?_cons] at hm
        obtain ⟨child, hchild, hm⟩ := Option.bind_eq_some_iff.1 hm
        exact ih.1 (hbelow child hchild) k (Nat.lt_of_succ_lt_succ hk) m hm
    · intro hall
      refine ⟨hall 0 (Nat.zero_lt_succ _) n rfl, ?_⟩
      intro child hchild
      refine ih.2 fun k hk m hm => ?_
      refine hall (k + 1) (Nat.succ_lt_succ hk) m ?_
      rw [List.take_succ_cons, at?_cons, hchild]
      exact hm

/-- The nodes that a visit meets, with their positions. -/
def reached (descends : Node → Bool) (n : Node) : List (List Nat × Node) :=
  n.located.filter fun x => n.isOpenTo descends x.1

/-- A visit meets the node itself, and then what it meets in the children, if it goes on below the node. -/
private theorem reached_eq (descends : Node → Bool) (n : Node) :
    n.reached descends =
      ([], n) :: if descends n then inChildren (reached descends) n.children else [] := by
  rw [reached, located_eq, List.filter_cons_of_pos (by simp [isOpenTo])]
  congr 1
  cases hdescends : descends n with
  | true =>
    rw [if_pos rfl, inChildren, List.filter_flatMap, inChildren]
    refine List.flatMap_congr fun x hx => ?_
    obtain ⟨child, i⟩ := x
    have hchild := List.mk_mem_zipIdx_iff_getElem?.1 hx
    -- in a child, a node is met if it would be met from there
    have hfilter : child.located.filter (fun y => n.isOpenTo descends (i :: y.1)) =
        child.reached descends := by
      refine List.filter_congr fun y _ => ?_
      simp [isOpenTo, hdescends, hchild]
    rw [List.filter_map]
    exact congrArg (List.map fun y => (i :: y.1, y.2)) hfilter
  | false =>
    rw [if_neg Bool.false_ne_true, List.filter_eq_nil_iff]
    -- every other node has this one above it
    intro x hx
    obtain ⟨i, child, rest, hplace, -⟩ := mem_inChildren.1 (show (x.1, x.2) ∈ _ from hx)
    simp [hplace, isOpenTo, hdescends]

/-- A visit asks for a response at the node, and goes on below if the response says so. -/
theorem visit_eq (respond : Node → Response) (n : Node) :
    n.visit respond = if (respond n).descends then
      (respond n).scan.andThen (visitAll respond n.children) else (respond n).scan := by
  obtain ⟨kind, role, span, place, children⟩ := n
  rw [visit]

/-- Some trees are visited one after another. -/
private theorem visitAll_eq_concat (respond : Node → Response) (children : List Node) :
    visitAll respond children = Scan.concat (children.map (visit respond)) := by
  induction children with
  | nil => rfl
  | cons child rest ih => rw [visitAll, ih, List.map_cons, Scan.concat_cons]

/-- A visit is made up of the responses of the nodes that it meets. -/
theorem visit_eq_concat {respond : Node → Response} {descends : Node → Bool}
    (h : ∀ n, (respond n).descends = descends n) (n : Node) :
    n.visit respond = Scan.concat ((n.reached descends).map fun x => (respond x.2).scan) := by
  -- the response of the node comes first, and then the visits of its children
  induction n using induction with
  | step n ih =>
    rw [visit_eq, h, reached_eq, List.map_cons, Scan.concat_cons]
    cases descends n with
    | false => exact (Scan.andThen_empty _).symm
    | true =>
      -- below the node, the nodes that are met are those met in each child
      have hbelow : (inChildren (reached descends) n.children).map (fun x => (respond x.2).scan) =
          n.children.flatMap fun c => (c.reached descends).map fun x => (respond x.2).scan := by
        have hnodes : (inChildren (reached descends) n.children).map Prod.snd =
            n.children.flatMap fun c => (c.reached descends).map Prod.snd :=
          map_snd_inChildren n.children
        have hscans := congrArg (List.map fun m => (respond m).scan) hnodes
        simpa only [List.map_flatMap, List.map_map, Function.comp_def] using hscans
      rw [if_pos rfl, if_pos rfl, hbelow, Scan.concat_flatMap, visitAll_eq_concat]
      exact congrArg (fun scans => (respond n).scan.andThen (Scan.concat scans)) (List.map_congr_left ih)

end Node

end JavaLint
