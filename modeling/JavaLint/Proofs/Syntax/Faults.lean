import JavaLint.Proofs.Syntax.Spans
import JavaLint.Proofs.Text.Encoding
import JavaLint.SourceUnit

/-!
# The first fault of a tree

The search for a fault enters only nodes that are marked, and stops at the first fault it meets. A tree marks its
faults if the marked nodes are those with a fault below them. Then nothing is missed: the line that is reported is
that of the first fault in document order.

- `firstErrorLine_eq`: one step of the search
- `firstErrorLine_eq_none_iff`: where the search finds nothing
- `MarksFaults`: the marks tell where the faults are
- `MarksFaults.firstErrorLine_eq`: the search agrees with a look at every node
- `firstErrorLine_first`: all of it together, and the parse failure of such a tree
-/

namespace JavaLint.Concrete

/-! ## The search -/

/-- The search goes through the children up to the first that has a fault. -/
theorem firstErrorLineIn_eq_findSome? (children : List Concrete) :
    firstErrorLineIn children = children.findSome? firstErrorLine := by
  induction children with
  | nil => rfl
  | cons child rest ih =>
    rw [firstErrorLineIn, List.findSome?_cons, ih]
    cases child.firstErrorLine <;> rfl

/-- A node is searched: the fault is the node itself, or below it if it is marked, or nowhere. -/
theorem firstErrorLine_eq (c : Concrete) :
    c.firstErrorLine =
      if c.isFault then some (c.span.startRow + 1)
      else if c.hasError then (firstErrorLineIn c.children).or (some (c.span.startRow + 1))
      else none := by
  cases c
  rw [firstErrorLine]

/-- Nothing is found exactly in a node that is neither a fault nor marked. -/
theorem firstErrorLine_eq_none_iff {c : Concrete} :
    c.firstErrorLine = none ↔ c.isFault = false ∧ c.hasError = false := by
  rw [firstErrorLine_eq]
  cases c.isFault <;> cases c.hasError <;> simp

/-! ## Trees that mark their faults -/

/-- Among the nodes that are no faults themselves, those with a fault below them are marked, and no others. -/
def MarksFaults (tree : Concrete) : Prop :=
  ∀ c ∈ tree.walk, c.isFault = false → (c.hasError = true ↔ ∃ d ∈ walkAll c.children, d.isFault = true)

instance (tree : Concrete) : Decidable tree.MarksFaults :=
  inferInstanceAs (Decidable (∀ c ∈ tree.walk, _))

/-- Every node of such a tree is the root of one. -/
private theorem MarksFaults.of_mem_walk {tree c : Concrete} (h : tree.MarksFaults) (hc : c ∈ tree.walk) :
    c.MarksFaults :=
  fun d hd => h d (walk_subset hc hd)

/-- The line, counted from one, of the first fault among some nodes. -/
def lineOfFirst (nodes : List Concrete) : Option Nat :=
  (nodes.find? isFault).map fun c => c.span.startRow + 1

/-- The first fault is in the first part, or else in the second. -/
private theorem lineOfFirst_append (first second : List Concrete) :
    lineOfFirst (first ++ second) = (lineOfFirst first).or (lineOfFirst second) := by
  rw [lineOfFirst, List.find?_append, Option.map_or]
  rfl

/-- If the search agrees with a look at every node in each tree of a list, it does so in the list. -/
private theorem firstErrorLineIn_eq_lineOfFirst {children : List Concrete}
    (h : ∀ child ∈ children, child.firstErrorLine = lineOfFirst child.walk) :
    firstErrorLineIn children = lineOfFirst (walkAll children) := by
  induction children with
  | nil => rfl
  | cons child rest ih =>
    obtain ⟨hchild, hrest⟩ := List.forall_mem_cons.1 h
    rw [firstErrorLineIn, walkAll, lineOfFirst_append, hchild, ih hrest]

/-- Below a node that is no fault itself there is a first fault exactly if the node is marked. -/
private theorem MarksFaults.isSome_lineOfFirst {c : Concrete} (h : c.MarksFaults) (hfault : c.isFault = false) :
    (lineOfFirst (walkAll c.children)).isSome = c.hasError := by
  rw [lineOfFirst, Option.isSome_map, Bool.eq_iff_iff, List.find?_isSome]
  exact (h c c.mem_walk_self hfault).symm

/-- In a tree that marks its faults, the search that leaves out what is not marked finds the first fault. -/
theorem MarksFaults.firstErrorLine_eq {tree : Concrete} (h : tree.MarksFaults) :
    tree.firstErrorLine = lineOfFirst tree.walk := by
  induction tree using Concrete.induction with
  | step tree ih =>
    -- what the search finds below is the first fault there, as the children mark their faults too
    have hbelow : firstErrorLineIn tree.children = lineOfFirst (walkAll tree.children) :=
      firstErrorLineIn_eq_lineOfFirst fun child hchild =>
        ih child hchild (h.of_mem_walk (mem_walk_of_mem_children tree.mem_walk_self hchild))
    rw [Concrete.firstErrorLine_eq, walk_eq, hbelow]
    cases hfault : tree.isFault with
    | true => simp [lineOfFirst, hfault]
    | false =>
      -- a node that is no fault does not count
      have hskip : lineOfFirst (tree :: walkAll tree.children) = lineOfFirst (walkAll tree.children) := by
        simp [lineOfFirst, hfault]
      rw [hskip]
      have hmark := h.isSome_lineOfFirst hfault
      cases hline : lineOfFirst (walkAll tree.children) with
      | some line =>
        -- the node is marked, and the fault below it comes before its own line
        rw [hline] at hmark
        simp [← hmark]
      | none =>
        rw [hline] at hmark
        simp [← hmark]

/-- The search through the children finds the first fault below. -/
private theorem MarksFaults.firstErrorLineIn_eq {c : Concrete} (h : c.MarksFaults) :
    firstErrorLineIn c.children = lineOfFirst (walkAll c.children) :=
  firstErrorLineIn_eq_lineOfFirst fun _ hchild =>
    (h.of_mem_walk (mem_walk_of_mem_children c.mem_walk_self hchild)).firstErrorLine_eq

/-- A marked tree that marks its faults has a first one. -/
private theorem MarksFaults.exists_find? {tree : Concrete} (h : tree.MarksFaults) (herror : tree.hasError = true) :
    ∃ fault, tree.walk.find? isFault = some fault ∧ tree.firstErrorLine = some (fault.span.startRow + 1) := by
  have hsome : tree.firstErrorLine ≠ none := by
    simp [firstErrorLine_eq_none_iff, herror]
  rw [h.firstErrorLine_eq, lineOfFirst] at hsome ⊢
  cases hfind : tree.walk.find? isFault with
  | none => simp [hfind] at hsome
  | some fault => exact ⟨fault, rfl, rfl⟩

/-- The search finds nothing exactly in a tree that is neither a fault nor marked. If the tree marks its faults, it
    finds the line of the first fault in document order; it never has to settle for the line of a marked node,
    because it finds a fault below every one; and this is the line that a failed parse points at. -/
theorem firstErrorLine_first (tree : Concrete) :
    (tree.firstErrorLine = none ↔ tree.kind ≠ "ERROR" ∧ tree.missing = false ∧ tree.hasError = false) ∧
      (tree.MarksFaults →
        tree.firstErrorLine = (tree.walk.find? isFault).map (fun c => c.span.startRow + 1) ∧
        (∀ c ∈ tree.walk, c.isFault = false → c.hasError = true →
          ∃ line, firstErrorLineIn c.children = some line ∧ c.firstErrorLine = some line) ∧
        ∀ path text, tree.hasError = true → ∃ fault, tree.walk.find? isFault = some fault ∧
          SourceUnit.parse path (Utf8.encode text) tree =
            .error ⟨path, .syntaxError (some (fault.span.startRow + 1))⟩) := by
  refine ⟨?_, fun h => ⟨h.firstErrorLine_eq, ?_, ?_⟩⟩
  · rw [firstErrorLine_eq_none_iff]
    simp [isFault, and_assoc]
  · intro c hc hfault herror
    -- a marked node has a fault below it, and the search through its children finds one
    have hmarks := h.of_mem_walk hc
    obtain ⟨line, hline⟩ := Option.isSome_iff_exists.1 ((hmarks.isSome_lineOfFirst hfault).trans herror)
    have hbelow := hmarks.firstErrorLineIn_eq.trans hline
    refine ⟨line, hbelow, ?_⟩
    simp [firstErrorLine_eq, hfault, herror, hbelow]
  · intro path text herror
    obtain ⟨fault, hfind, hline⟩ := h.exists_find? herror
    refine ⟨fault, hfind, ?_⟩
    rw [SourceUnit.parse, Utf8.decode?_eq_ok_iff.2 rfl]
    simp [herror, hline]

/-- A tree whose first child is clean. In its second child a token without a name is missing, in the fourth line,
    before a fault in the fifth line that holds another one. -/
def faultyTree : Concrete :=
  let node : String → Bool → Bool → Nat → List Concrete → Concrete :=
    fun kind missing hasError row children =>
      ⟨kind, none, kind != ";", missing, hasError, ⟨row, row + 1, row, 0, row, 1⟩, children⟩
  node "program" false true 0
    [node "import_declaration" false false 1 [node ";" false false 1 []],
      node "class_declaration" false true 2
        [node "identifier" false false 2 [], node ";" true true 3 [],
          node "ERROR" false true 4 [node "ERROR" false true 4 []]],
      node "ERROR" false true 5 []]

/-- In this tree the missing token is reported, not the fault after it. -/
theorem firstErrorLine_first_faultyTree :
    faultyTree.MarksFaults ∧ faultyTree.firstErrorLine = some 4 ∧
      SourceUnit.parse "A.java" (Utf8.encode []) faultyTree = .error ⟨"A.java", .syntaxError (some 4)⟩ := by
  have hmarks : faultyTree.MarksFaults := by decide
  obtain ⟨-, hmarked⟩ := firstErrorLine_first faultyTree
  obtain ⟨hline, -, hparse⟩ := hmarked hmarks
  obtain ⟨fault, hfind, hfailure⟩ := hparse "A.java" [] rfl
  -- the search gives some fault; of it only the row matters
  have hrow : fault.span.startRow = 3 := by
    have hfirst : (faultyTree.walk.find? isFault).map (·.span.startRow) = some 3 := by decide
    rw [hfind] at hfirst
    exact Option.some.inj hfirst
  refine ⟨hmarks, hline.trans (by decide), ?_⟩
  rw [hfailure, hrow]

end JavaLint.Concrete
