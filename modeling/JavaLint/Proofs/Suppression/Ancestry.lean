import JavaLint.Proofs.Syntax.Spans
import JavaLint.Suppression

/-!
# Suppression follows the tree

Scopes are collected from the whole file and compared with a candidate by byte offsets only. In an arranged
tree this comes down to ancestry: a candidate is suppressed by an annotation on its own node or on a node above it,
and never by an annotation elsewhere. A node of the same span, wherever it stands on that way, counts as the
node itself.

- `IsAnnotatedFor`: an annotation of the node names the rule or everything
- `exists_mem_ofNode`: such a node opens a scope that covers the rule
- `suppresses_iff_ancestry`: suppression by spans is suppression by ancestry
-/

namespace JavaLint.SuppressionScope

/-! ## What an annotation names -/

/-- The annotation names the value: it is a suppressing annotation, and the value is the text of a string
    literal among its arguments, at any depth, without blanks and quotes around it. -/
def IsNamedBy (source : Bytes) (value : String) (marker : Node) : Prop :=
  (∃ name, marker.child? "name" = some name ∧
    (name.text source = "SuppressWarnings" ∨ name.text source = "java.lang.SuppressWarnings")) ∧
  ∃ arguments, marker.child? "arguments" = some arguments ∧
    ∃ literal ∈ arguments.walk, literal.kind = "string_literal" ∧
      Text.trimQuotes (Text.trim (literal.text source)) = value

/-- Among the modifiers of the node an annotation names the rule or everything. -/
def IsAnnotatedFor (source : Bytes) (rule : String) (n : Node) : Prop :=
  ∃ modifiers ∈ n.children, modifiers.kind = "modifiers" ∧
    ∃ marker ∈ modifiers.children, (marker.kind = "annotation" ∨ marker.kind = "marker_annotation") ∧
      ∃ value, IsNamedBy source value marker ∧ (value = rule ∨ value = "all" ∨ value = "sift")

/-- The values of an annotation are the string literals among its arguments. -/
private theorem mem_annotationValues {source : Bytes} {marker : Node} {value : String} :
    value ∈ annotationValues source marker ↔
      ∃ arguments, marker.child? "arguments" = some arguments ∧
        ∃ literal ∈ arguments.walk, literal.kind = "string_literal" ∧
          Text.trimQuotes (Text.trim (literal.text source)) = value := by
  rw [annotationValues]
  cases marker.child? "arguments" with
  | none => simp
  | some arguments =>
    simp only [List.mem_map, List.mem_filter, beq_iff_eq, Option.some.injEq, exists_eq_left', and_assoc]

/-- The names that modifiers suppress are those that one of their annotations names. -/
private theorem mem_suppressedNames {source : Bytes} {modifiers : Node} {value : String} :
    value ∈ suppressedNames source modifiers ↔
      ∃ marker ∈ modifiers.children, (marker.kind = "annotation" ∨ marker.kind = "marker_annotation") ∧
        IsNamedBy source value marker := by
  -- the names of the annotation are a list of two
  have hname : ∀ marker : Node,
      (marker.child? "name").any (fun name => annotationNames.contains (name.text source)) = true ↔
        ∃ name, marker.child? "name" = some name ∧
          (name.text source = "SuppressWarnings" ∨ name.text source = "java.lang.SuppressWarnings") := by
    intro marker
    rw [Option.any_eq_true]
    simp [annotationNames]
  simp only [suppressedNames, Node.childrenOfKind, List.mem_flatMap, List.mem_filter, hname]
  simp only [mem_annotationValues, IsNamedBy, annotationKinds, List.contains_eq_mem, List.mem_cons,
    List.not_mem_nil, or_false, decide_eq_true_eq, and_assoc]

/-- A scope covers a rule if one of its names is the rule or stands for everything. -/
theorem covers_iff {scope : SuppressionScope} {rule : String} :
    scope.covers rule = true ↔ ∃ value ∈ scope.names, value = rule ∨ value = "all" ∨ value = "sift" := by
  simp only [covers, everything, Bool.or_eq_true, List.any_eq_true, List.contains_eq_mem,
    decide_eq_true_eq, List.mem_cons, List.not_mem_nil, or_false]
  constructor
  · rintro (hrule | ⟨value, hmem, hall⟩)
    · exact ⟨rule, hrule, .inl rfl⟩
    · exact ⟨value, hmem, .inr hall⟩
  · rintro ⟨value, hmem, rfl | hall⟩
    · exact .inl hmem
    · exact .inr ⟨value, hmem, hall⟩

/-- A node opens a scope that covers the rule exactly if it is annotated for it. -/
theorem exists_mem_ofNode {source : Bytes} {rule : String} {n : Node} :
    (∃ scope ∈ ofNode source n, scope.covers rule = true) ↔ IsAnnotatedFor source rule n := by
  simp only [ofNode, Node.childrenOfKind, List.mem_filterMap, List.mem_filter, IsAnnotatedFor,
    List.contains_eq_mem, List.mem_singleton, decide_eq_true_eq]
  constructor
  · rintro ⟨scope, ⟨modifiers, ⟨hmem, hkind⟩, hscope⟩, hcovers⟩
    split at hscope
    · exact nomatch hscope
    · rw [← Option.some.inj hscope] at hcovers
      obtain ⟨value, hvalue, hrule⟩ := covers_iff.1 hcovers
      obtain ⟨marker, hmarker, hmkind, hnamed⟩ := mem_suppressedNames.1 hvalue
      exact ⟨modifiers, hmem, hkind, marker, hmarker, hmkind, value, hnamed, hrule⟩
  · rintro ⟨modifiers, hmem, hkind, marker, hmarker, hmkind, value, hnamed, hrule⟩
    have hvalue := mem_suppressedNames.2 ⟨marker, hmarker, hmkind, hnamed⟩
    -- with a name among them, the modifiers open a scope
    have hsome : (suppressedNames source modifiers).isEmpty = false := by
      rw [List.isEmpty_eq_false_iff]
      exact List.ne_nil_of_mem hvalue
    refine ⟨⟨n, suppressedNames source modifiers⟩, ⟨modifiers, ⟨hmem, hkind⟩, ?_⟩, ?_⟩
    · rw [hsome]
      rfl
    · exact covers_iff.2 ⟨value, hvalue, hrule⟩

/-- A scope belongs to the node that opens it. -/
private theorem declaration_of_mem_ofNode {source : Bytes} {n : Node} {scope : SuppressionScope}
    (h : scope ∈ ofNode source n) : scope.declaration = n := by
  obtain ⟨modifiers, -, hscope⟩ := List.mem_filterMap.1 h
  simp only at hscope
  split at hscope
  · exact nomatch hscope
  · rw [← Option.some.inj hscope]

/-! ## Suppression by spans and by ancestry -/

/-- The scopes that one node opens suppress what lies within the node, if it is annotated for the rule. -/
private theorem suppresses_ofNode_iff {source : Bytes} {rule : String} {declaration n : Node} :
    suppresses (ofNode source declaration) rule (some n) = true ↔
      IsAnnotatedFor source rule declaration ∧ declaration.contains n = true := by
  rw [suppresses, Option.any_some, List.any_eq_true, ← exists_mem_ofNode]
  simp only [Bool.and_eq_true]
  -- every scope that comes from a declaration has its span
  constructor
  · rintro ⟨scope, hmem, hcovers, hcontains⟩
    rw [declaration_of_mem_ofNode hmem] at hcontains
    exact ⟨⟨scope, hmem, hcovers⟩, hcontains⟩
  · rintro ⟨⟨scope, hmem, hcovers⟩, hcontains⟩
    refine ⟨scope, hmem, hcovers, ?_⟩
    rw [declaration_of_mem_ofNode hmem]
    exact hcontains

/-- The scopes of a tree suppress what the scopes of one of its nodes suppress. -/
private theorem suppresses_find_iff {source : Bytes} {rule : String} {root : Node} {node? : Option Node} :
    suppresses (find source root) rule node? = true ↔
      ∃ place declaration, root.at? place = some declaration ∧
        suppresses (ofNode source declaration) rule node? = true := by
  cases node? with
  | none => simp [suppresses]
  | some n =>
    -- the nodes of the tree are those at its positions
    have hwalk : ∀ d, d ∈ root.walk ↔ ∃ place, root.at? place = some d := by
      intro d
      rw [← Node.map_snd_located]
      simp [Node.mem_located]
    simp only [suppresses, find, Option.any_some, List.any_flatMap, List.any_eq_true (l := root.walk),
      hwalk]
    constructor
    · rintro ⟨d, ⟨place, hat⟩, hany⟩
      exact ⟨place, d, hat, hany⟩
    · rintro ⟨place, d, hat, hany⟩
      exact ⟨d, ⟨place, hat⟩, hany⟩

/-- The node at the one position counts as the node at the other or as one above it: it stands at or above
    it, or it stands below with the same span. -/
def IsAround (root : Node) (declaration : Node) (above : List Nat) (n : Node) (place : List Nat) : Prop :=
  root.at? above = some declaration ∧
    (above <+: place ∨ (place <+: above ∧
      declaration.span.startByte = n.span.startByte ∧ declaration.span.endByte = n.span.endByte))

/-- In the syntax tree of an arranged tree, a candidate at a node that is not empty is suppressed exactly if the
    node itself, one above it, or one below it with the same span is annotated for the rule. Nodes that
    stand elsewhere suppress nothing there, whatever their annotations say. -/
theorem suppresses_iff_ancestry (tree : Concrete) (source : Bytes) (rule : String) (place : List Nat)
    (n : Node) (htree : tree.IsArranged) (hat : (Node.ofConcrete tree).at? place = some n)
    (hne : n.span.startByte < n.span.endByte) :
    (suppresses (find source (Node.ofConcrete tree)) rule (some n) = true ↔
      ∃ above declaration, IsAround (Node.ofConcrete tree) declaration above n place ∧
        IsAnnotatedFor source rule declaration) ∧
    ∀ other declaration, (Node.ofConcrete tree).at? other = some declaration →
      ¬ other <+: place → ¬ place <+: other →
        suppresses (ofNode source declaration) rule (some n) = false := by
  have harranged := htree.ofConcrete
  constructor
  · rw [suppresses_find_iff]
    constructor
    · rintro ⟨above, declaration, habove, hsuppresses⟩
      -- a span that holds a span which is not empty stands above it, or has the same extent
      obtain ⟨hannotated, hcontains⟩ := suppresses_ofNode_iff.1 hsuppresses
      have hplace := harranged.prefix_of_contains habove hat hne hcontains
      exact ⟨above, declaration, ⟨habove, hplace⟩, hannotated⟩
    · rintro ⟨above, declaration, ⟨habove, hplace⟩, hannotated⟩
      refine ⟨above, declaration, habove, suppresses_ofNode_iff.2 ⟨hannotated, ?_⟩⟩
      -- a node holds what is below it, and what has its own span
      rcases hplace with hunder | ⟨-, hstart, hend⟩
      · exact harranged.contains_of_isPrefix habove hat hunder
      · rw [Node.contains, Span.contains_iff]
        omega
  · intro other declaration hother hnot hnot'
    rw [Bool.eq_false_iff]
    intro hsuppresses
    obtain ⟨-, hcontains⟩ := suppresses_ofNode_iff.1 hsuppresses
    rcases harranged.prefix_of_contains hother hat hne hcontains with hunder | ⟨hunder, -⟩
    · exact hnot hunder
    · exact hnot' hunder

/-- Two classes, of which the first is annotated. -/
def annotatedSource : Bytes :=
  "@SuppressWarnings(\"all\") class A \x7b\x7d class B \x7b\x7d".toList.map fun c => UInt8.ofNat c.toNat

/-- The tree of these classes. -/
def annotatedTree : Concrete :=
  let node : String → Option String → Nat → Nat → List Concrete → Concrete :=
    fun kind field start stop children =>
      ⟨kind, field, true, false, false, ⟨start, stop, 0, start, 0, stop⟩, children⟩
  node "program" none 0 46
    [node "class_declaration" none 0 35
      [node "modifiers" none 0 24
        [node "annotation" none 0 24
          [node "identifier" (some "name") 1 17 [],
            node "annotation_argument_list" (some "arguments") 17 24
              [node "string_literal" none 18 23 []]]],
        node "class_body" (some "body") 33 35 []],
      node "class_declaration" none 36 46 []]

/-- The annotation of the first class suppresses what is in its body, and nothing in the second class. -/
theorem suppresses_iff_ancestry_annotatedTree :
    annotatedTree.IsArranged ∧ ∃ body first second,
      (Node.ofConcrete annotatedTree).at? [0, 1] = some body ∧
      (Node.ofConcrete annotatedTree).at? [0] = some first ∧
      (Node.ofConcrete annotatedTree).at? [1] = some second ∧
      suppresses (find annotatedSource (Node.ofConcrete annotatedTree)) "DuplicateImport" (some body) =
        true ∧
      suppresses (ofNode annotatedSource first) "DuplicateImport" (some second) = false := by
  have harranged : annotatedTree.IsArranged :=
    Concrete.isArranged_of_isChain (by decide) (by decide) (by decide)
  refine ⟨harranged, _, _, _, rfl, rfl, rfl, ?_, ?_⟩
  · -- the body lies in the first class, whose annotation names everything
    refine (suppresses_iff_ancestry annotatedTree annotatedSource "DuplicateImport" [0, 1] _ harranged rfl
      (by decide)).1.2 ⟨[0], _, ⟨rfl, .inl (by decide)⟩, ?_⟩
    refine ⟨_, List.mem_cons_self, rfl, _, List.mem_cons_self, .inl rfl, "all", ⟨⟨_, rfl, .inl ?_⟩,
      _, rfl, ?_⟩, .inr (.inl rfl)⟩
    · decide +kernel
    · exact ⟨_, List.mem_cons_of_mem _ List.mem_cons_self, rfl, by decide +kernel⟩
  · exact (suppresses_iff_ancestry annotatedTree annotatedSource "DuplicateImport" [1] _ harranged rfl
      (by decide)).2 [0] _ rfl (by decide) (by decide)

end JavaLint.SuppressionScope
