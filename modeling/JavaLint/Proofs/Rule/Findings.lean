import JavaLint.Proofs.Rule.Visits
import JavaLint.Violation

/-!
# What a visit finds, by position

A rule that never fails and always descends finds what it finds at each node of the tree, in document
order. Where it reports nodes below the node it looks at, and no two of the nodes it looks at can reach the
same one, every node is reported once.

- `visit_eq_of_descends`: the findings of such a rule
- `IsNearest`, `exists_isNearest`: the innermost node of some kinds above a position
- `spread`, `mem_spread`, `nodup_spread`: positions reported from every node of a tree
- `Rule.exists_apply_eq_ok`: the candidates of such a rule stand at the positions it reports
-/

namespace JavaLint.Node

/-! ## Visits that meet every node -/

/-- A rule that never fails and always descends finds what it finds at each node. -/
theorem visit_eq_of_descends {respond : Node → Response}
    (h : ∀ n, (respond n).descends = true ∧ (respond n).scan.fault = none) (n : Node) :
    n.visit respond = ⟨n.walk.flatMap fun m => (respond m).scan.findings, none⟩ := by
  -- nothing is left out, as the visit always goes on
  have hreached : n.reached (fun _ => true) = n.located :=
    List.filter_eq_self.2 fun x _ => isOpenTo_iff.2 fun _ _ _ _ => rfl
  have hclean : ∀ scan ∈ n.located.map fun x => (respond x.2).scan, scan.fault = none := by
    intro scan hscan
    obtain ⟨x, -, rfl⟩ := List.mem_map.1 hscan
    exact (h x.2).2
  rw [visit_eq_concat (fun m => (h m).1), hreached, Scan.concat_of_fault_eq_none hclean, List.flatMap_map,
    ← map_snd_located, List.flatMap_map]

/-! ## The innermost node of some kinds -/

/-- Of the nodes above a position that are of the given kinds, `n` is the innermost. It stands at the first
    `depth` indices of the position. -/
structure IsNearest (kinds : List String) (root : Node) (place : List Nat) (depth : Nat) (n : Node) :
    Prop where
  depth_lt : depth < place.length
  at_depth : root.at? (place.take depth) = some n
  kind_mem : n.kind ∈ kinds
  innermost : ∀ k, depth < k → k < place.length →
    ∀ m, root.at? (place.take k) = some m → m.kind ∉ kinds

/-- There is only one innermost node. -/
private theorem IsNearest.depth_unique {kinds : List String} {root n n' : Node} {place : List Nat}
    {depth depth' : Nat} (h : IsNearest kinds root place depth n)
    (h' : IsNearest kinds root place depth' n') : depth = depth' := by
  rcases Nat.lt_trichotomy depth depth' with hlt | heq | hlt
  · exact absurd h'.kind_mem (h.innermost depth' hlt h'.depth_lt n' h'.at_depth)
  · exact heq
  · exact absurd h.kind_mem (h'.innermost depth hlt h.depth_lt n h.at_depth)

/-- A node of these kinds is the innermost above what can be reached from it without meeting another. -/
theorem isNearest_append_iff {kinds : List String} {root n : Node} {above below : List Nat}
    (h : root.at? above = some n) :
    IsNearest kinds root (above ++ below) above.length n ↔
      below ≠ [] ∧ n.kind ∈ kinds ∧ n.isClear kinds below = true := by
  -- a position below the node, seen from the root
  have hat : ∀ k, root.at? ((above ++ below).take (above.length + k)) = n.at? (below.take k) := by
    intro k
    rw [List.take_length_add_append, at?_append, h]
    rfl
  rw [isClear_iff]
  constructor
  · intro hnear
    have hlt := hnear.depth_lt
    rw [List.length_append] at hlt
    refine ⟨?_, hnear.kind_mem, ?_⟩
    · rintro rfl
      simp at hlt
    · intro k hk hklt m hm
      refine hnear.innermost (above.length + k) (by omega) ?_ m ?_
      · rw [List.length_append]
        omega
      · rw [hat]
        exact hm
  · rintro ⟨hne, hkind, hclear⟩
    have hpos : 0 < below.length := List.length_pos_iff.2 hne
    refine ⟨?_, ?_, hkind, ?_⟩
    · rw [List.length_append]
      omega
    · rw [List.take_left]
      exact h
    · intro k hk hklt m hm
      -- what is further in than the node lies below it
      obtain ⟨j, rfl⟩ : ∃ j, k = above.length + j := ⟨k - above.length, by omega⟩
      rw [List.length_append] at hklt
      rw [hat] at hm
      exact hclear j (by omega) (by omega) m hm

/-- A position is cut at the innermost node of some kinds above it. -/
theorem IsNearest.exists_append {kinds : List String} {root n : Node} {place : List Nat} {depth : Nat}
    (h : IsNearest kinds root place depth n) :
    ∃ below, place = place.take depth ++ below ∧ below ≠ [] ∧ n.kind ∈ kinds ∧
      n.isClear kinds below = true := by
  have hsplit : place.take depth ++ place.drop depth = place := List.take_append_drop depth place
  have hlength : (place.take depth).length = depth := by
    rw [List.length_take]
    exact Nat.min_eq_left (Nat.le_of_lt h.depth_lt)
  refine ⟨place.drop depth, hsplit.symm, (isNearest_append_iff h.at_depth).1 ?_⟩
  rw [hsplit, hlength]
  exact h

/-- Where a node of some kinds stands above a position, there is an innermost one, no higher than it. -/
theorem exists_isNearest {kinds : List String} {root n : Node} {place : List Nat} {depth : Nat}
    (hlt : depth < place.length) (hat : root.at? (place.take depth) = some n) (hkind : n.kind ∈ kinds) :
    ∃ depth' n', depth ≤ depth' ∧ IsNearest kinds root place depth' n' := by
  -- induction on the distance from the position: a node further in takes the place of `n`
  induction hk : place.length - depth using Nat.strongRecOn generalizing depth n with
  | ind k ih =>
    by_cases hinner : ∃ d m, depth < d ∧ d < place.length ∧ root.at? (place.take d) = some m ∧
        m.kind ∈ kinds
    · obtain ⟨d, m, hd, hdlt, hm, hmkind⟩ := hinner
      obtain ⟨depth', n', hle, hnear⟩ := ih (place.length - d) (by omega) hdlt hm hmkind rfl
      exact ⟨depth', n', by omega, hnear⟩
    · refine ⟨depth, n, Nat.le_refl _, hlt, hat, hkind, ?_⟩
      intro d hd hdlt m hm hmkind
      exact hinner ⟨d, m, hd, hdlt, hm, hmkind⟩

/-! ## Positions reported from every node -/

/-- The positions that are reported at each node of a tree, seen from the root. -/
def spread (places : Node → List (List Nat)) (root : Node) : List (List Nat) :=
  root.located.flatMap fun x => (places x.2).map (x.1 ++ ·)

/-- What is reported is a node and a position that is reported from it. -/
theorem mem_spread {places : Node → List (List Nat)} {root : Node} {place : List Nat} :
    place ∈ root.spread places ↔
      ∃ above n below, root.at? above = some n ∧ below ∈ places n ∧ place = above ++ below := by
  simp only [spread, List.mem_flatMap, List.mem_map, Prod.exists, mem_located]
  constructor
  · rintro ⟨above, n, hat, below, hmem, rfl⟩
    exact ⟨above, n, below, hat, hmem, rfl⟩
  · rintro ⟨above, n, below, hat, hmem, rfl⟩
    exact ⟨above, n, hat, below, hmem, rfl⟩

/-- The nodes at the reported positions, seen from the node that reports them and from the root. -/
private theorem map_at?_spread (places : Node → List (List Nat)) (root : Node) :
    (root.spread places).map root.at? = root.walk.flatMap fun n => (places n).map n.at? := by
  rw [← map_snd_located, List.flatMap_map, spread, List.map_flatMap]
  refine List.flatMap_congr fun x hx => ?_
  rw [List.map_map]
  refine List.map_congr_left fun below _ => ?_
  rw [Function.comp_apply, at?_append, mem_located.1 hx]
  rfl

/-- Nodes that report only what lies below them, with none of their own kinds in between, never report the
    same position. -/
theorem nodup_spread {kinds : List String} {places : Node → List (List Nat)}
    (hnodup : ∀ n, (places n).Nodup)
    (hclear : ∀ n, ∀ below ∈ places n, below ≠ [] ∧ n.kind ∈ kinds ∧ n.isClear kinds below = true)
    (root : Node) : (root.spread places).Nodup := by
  rw [spread, List.nodup_flatMap]
  constructor
  · -- from one node no position is reported twice
    intro x _
    exact (hnodup x.2).map (List.append_right_injective x.1)
  · refine (List.pairwise_map.1 root.nodup_located).imp_of_mem ?_
    rintro ⟨above, n⟩ ⟨above', n'⟩ hmem hmem' hne place hplace hplace'
    obtain ⟨below, hbelow, rfl⟩ := List.mem_map.1 hplace
    obtain ⟨below', hbelow', heq⟩ := List.mem_map.1 hplace'
    -- both nodes are the innermost of their kinds above the position, so they are the same
    have hnear := (isNearest_append_iff (mem_located.1 hmem)).2 (hclear n below hbelow)
    have hnear' := (isNearest_append_iff (mem_located.1 hmem')).2 (hclear n' below' hbelow')
    simp only at heq hne
    rw [heq] at hnear'
    exact hne (List.append_inj heq.symm (hnear.depth_unique hnear')).1

end JavaLint.Node

namespace JavaLint.Rule

/-- The candidates of a rule that never fails and always descends stand at the positions that it reports
    from each node of the tree. -/
theorem exists_apply_eq_ok (rule : Rule) (u : SourceUnit) {respond : Node → Response}
    {places : Node → List (List Nat)} (hrespond : rule.detector.respond u.source = respond)
    (hdescends : ∀ n, (respond n).descends = true ∧ (respond n).scan.fault = none)
    (hnodes : ∀ n, (respond n).scan.findings.map (·.node?) = (places n).map n.at?) :
    ∃ candidates, rule.apply u = .ok candidates ∧
      candidates.map (·.node?) = (u.root.spread places).map u.root.at? := by
  refine ⟨(u.root.walk.flatMap fun n => (respond n).scan.findings).map (rule.candidate u), ?_, ?_⟩
  · rw [apply, scan, hrespond, Node.visit_eq_of_descends hdescends]
  · rw [Node.map_at?_spread, List.map_map, List.map_flatMap]
    refine List.flatMap_congr fun n _ => ?_
    rw [← hnodes]
    rfl

end JavaLint.Rule
