import Mathlib.Data.List.Count
import JavaLint.Proofs.Syntax.Spans
import JavaLint.Proofs.Text.Encoding
import JavaLint.Proofs.Text.LineEnds
import JavaLint.Violation

/-!
# The source line that a violation shows

A node counts its line by the line feeds before it, and a source unit cuts its text at every character that ends
a line. So the line that a violation shows is the one that holds its node as long as no line before the node is
ended by anything else than a line feed. After a stray end the violation shows an earlier line.

- `Utf8.count_encode`: line feeds can be counted in the bytes
- `Node.exists_span_eq`: a node has the span of a concrete node
- `Rule.sourceLine_candidate`: which line is shown, which one holds the node, and when they are the same
-/

namespace JavaLint

/-! ## Bytes and characters -/

namespace Utf8

/-- The byte of the line feed. -/
def lineFeed : UInt8 := 0x0A

/-- Only the line feed is encoded with its byte. -/
private theorem count_utf8EncodeChar (c : Char) :
    (String.utf8EncodeChar c).count lineFeed = if c = '\n' then 1 else 0 := by
  -- on the code units, as numbers
  have hunits : (String.utf8EncodeChar c).count lineFeed = (units c.toNat).count 10 := by
    rw [← map_toNat_utf8EncodeChar]
    exact (List.count_map_of_injective _ _ (fun _ _ h => UInt8.toNat_inj.1 h) lineFeed).symm
  have hfeed : c = '\n' ↔ c.toNat = 10 := by
    constructor
    · rintro rfl
      rfl
    · intro h
      rw [← Char.ofNat_toNat c, h]
  rw [hunits]
  simp only [hfeed, units]
  -- the bytes of a longer sequence are all above the line feed
  split_ifs
  all_goals simp only [List.count_cons, List.count_nil, beq_iff_eq]
  all_goals split_ifs <;> omega

/-- A text has as many line feeds as its bytes. -/
theorem count_encode (text : List Char) : (encode text).count lineFeed = text.count '\n' := by
  induction text with
  | nil => rfl
  | cons c text ih =>
    rw [encode, List.flatMap_cons, List.count_append, ← encode, ih, count_utf8EncodeChar, List.count_cons]
    simp [Nat.add_comm]

/-- The bytes of two texts, one after the other. -/
private theorem encode_append (a b : List Char) : encode (a ++ b) = encode a ++ encode b :=
  List.flatMap_append

end Utf8

/-! ## Rows -/

/-- Every node of the tree starts in the row that the line feeds before it lead to. -/
def Concrete.CountsRows (source : Bytes) (tree : Concrete) : Prop :=
  ∀ n ∈ tree.walk, n.span.startRow = (source.take n.span.startByte).count Utf8.lineFeed

/-- A node of the syntax tree has the span of a node of the concrete tree. -/
theorem Node.exists_span_eq {tree : Concrete} {role : Option String} {place : List Nat} {n : Node}
    (h : n ∈ (ofConcreteAt role place tree).walk) : ∃ c ∈ tree.walk, c.span = n.span := by
  obtain ⟨c, hc, role', place', rfl⟩ := exists_eq_ofConcreteAt h
  exact ⟨c, hc, (children_ofConcreteAt role' place' c).1.symm⟩

/-! ## Shown lines -/

/-- The lines of a unit are those of its text, if it has one. -/
private theorem SourceUnit.lines_of_decode? {u : SourceUnit} {text : List Char}
    (h : Utf8.decode? u.source = .ok text) : u.lines = Text.lines (.ofList text) := by
  rw [lines, Utf8.decodeReplacing_of_decode? h]

namespace Rule

open Text

/-- The violation shows the line that its node counts. -/
private theorem sourceLine_candidate_eq (rule : Rule) (u : SourceUnit) (node : Node) (message : Option String) :
    (rule.candidate u ⟨some node, message⟩).violation.sourceLine = u.lines[node.span.startRow]?.map trim := by
  show u.sourceLine? (node.span.startRow + 1 : Nat) = _
  rw [SourceUnit.sourceLine?, if_neg (by omega)]
  congr 2
  omega

/-- A violation shows the line that as many line feeds lead to as stand before its node, and its node stands as
    many lines later as there are stray ends before it. Without any, the violation shows the text between the
    line feeds around its node exactly if everything on that line after a stray end is blank. -/
theorem sourceLine_candidate (rule : Rule) {u : SourceUnit} {tree : Concrete}
    (hroot : u.root = Node.ofConcrete tree) (hrows : tree.CountsRows u.source)
    {before after : List Char} {c : Char} (hsource : Utf8.decode? u.source = .ok (before ++ c :: after))
    (hc : isBlank c = false) {node : Node} (hnode : node ∈ u.root.walk)
    (hstart : node.span.startByte = (Utf8.encode before).length) (message : Option String) :
    (rule.candidate u ⟨some node, message⟩).violation.sourceLine =
        u.lines[before.count '\n']?.map trim ∧
      u.lines[before.count '\n' + strayEnds before]? =
        some (.ofList (around isLineBreak before (c :: after))) ∧
      (strayEnds before = 0 →
        ((rule.candidate u ⟨some node, message⟩).violation.sourceLine =
            some (trim (.ofList (around (· == '\n') before (c :: after)))) ↔
          ∀ d ∈ afterFirstEnd (c :: after), isBlank d = true)) := by
  -- a character that is not blank ends no line
  have hbreak : isLineBreak c = false := by
    cases h : isLineBreak c with
    | false => rfl
    | true => rw [isBlank_of_isLineBreak h] at hc; cases hc
  -- the row is counted in the bytes before the character
  have hrow : node.span.startRow = before.count '\n' := by
    rw [hroot] at hnode
    obtain ⟨n, hn, hspan⟩ := Node.exists_span_eq hnode
    rw [← hspan, hrows n hn, hspan, hstart, Utf8.decode?_eq_ok_iff.1 hsource, Utf8.encode_append,
      List.take_left, Utf8.count_encode]
  -- the line that holds the character is found by counting every end of a line
  have hholds : u.lines[before.count '\n' + strayEnds before]? =
      some (.ofList (around isLineBreak before (c :: after))) := by
    rw [SourceUnit.lines_of_decode? hsource, getElem?_lines hbreak]
  have hshown := sourceLine_candidate_eq rule u node message
  rw [hrow] at hshown
  refine ⟨hshown, hholds, fun hstray => ?_⟩
  -- both count the same, so what is shown is the line that holds the node, and this is cut off at the next
  -- stray end
  rw [hstray, Nat.add_zero] at hholds
  rw [hshown, hholds, Option.map_some, Option.some.injEq, ← String.toList_inj, toList_trim, toList_trim,
    String.toList_ofList, String.toList_ofList, around_newline hstray, trimChars_append_eq_iff]

/-- An empty class that starts in the second line. -/
def classAt (start column : Nat) : Concrete :=
  ⟨"class_declaration", none, true, false, false, ⟨start, start + 10, 1, column, 1, column + 10⟩,
    [⟨"class", none, false, false, false, ⟨start, start + 5, 1, column, 1, column + 5⟩, []⟩,
      ⟨"identifier", some "name", true, false, false, ⟨start + 6, start + 7, 1, column + 6, 1, column + 7⟩, []⟩,
      ⟨"class_body", some "body", true, false, false, ⟨start + 8, start + 10, 1, column + 8, 1, column + 10⟩,
        [⟨"\x7b", none, false, false, false, ⟨start + 8, start + 9, 1, column + 8, 1, column + 9⟩, []⟩,
          ⟨"\x7d", none, false, false, false, ⟨start + 9, start + 10, 1, column + 9, 1, column + 10⟩, []⟩]⟩]⟩

/-- A source with a comment in the first line and an empty class in the second. -/
def classAfterComment (commentEnd start column sourceEnd : Nat) : Concrete :=
  ⟨"program", none, true, false, false, ⟨0, sourceEnd, 0, 0, 2, 0⟩,
    [⟨"line_comment", none, true, false, false, ⟨0, commentEnd, 0, 0, 0, commentEnd⟩, []⟩,
      classAt start column]⟩

/-- The unit of a source whose class stands after the text `before`. -/
def classUnit (before after : String) (tree : Concrete) : SourceUnit :=
  ⟨"A.java", Utf8.encode (before.toList ++ 'c' :: after.toList), Node.ofConcrete tree⟩

/-- The bytes of the unit are those of its text. -/
private theorem decode?_classUnit (before after : String) (tree : Concrete) :
    Utf8.decode? (classUnit before after tree).source = .ok (before.toList ++ 'c' :: after.toList) :=
  Utf8.decode?_eq_ok_iff.2 rfl

/-- A comment line that ends in a carriage return and a line feed, and a form feed at the end of the line. -/
theorem sourceLine_candidate_carriageReturn :
    (duplicateImport.candidate
      (classUnit "// é\r\n  " "lass A \x7b\x7d \x0c\n" (classAfterComment 6 9 2 22))
      ⟨some (Node.ofConcreteAt none [0] (classAt 9 2)), none⟩).violation.sourceLine =
        some "class A \x7b\x7d" := by
  have hrows : (classAfterComment 6 9 2 22).CountsRows
      (classUnit "// é\r\n  " "lass A \x7b\x7d \x0c\n" (classAfterComment 6 9 2 22)).source := by
    unfold Concrete.CountsRows
    decide
  have hnode : Node.ofConcreteAt none [0] (classAt 9 2) ∈
      (classUnit "// é\r\n  " "lass A \x7b\x7d \x0c\n" (classAfterComment 6 9 2 22)).root.walk :=
    .tail _ (.head _)
  -- the carriage return belongs to the line feed behind it, so there is no stray end before the class
  have hline := sourceLine_candidate duplicateImport rfl hrows (decode?_classUnit _ _ _) (by decide) hnode
    (by decide) none
  exact (hline.2.2 (by decide)).2 (List.all_eq_true.1 (by decide))

/-- A form feed in the comment above a class: the violation at the class shows the rest of the comment. -/
theorem sourceLine_candidate_formFeed :
    let u := classUnit "// a\x0cb\n" "lass A \x7b\x7d\n" (classAfterComment 6 7 0 18)
    let node := Node.ofConcreteAt none [0] (classAt 7 0)
    u.root = Node.ofConcrete (classAfterComment 6 7 0 18) ∧
      (classAfterComment 6 7 0 18).CountsRows u.source ∧
      Utf8.decode? u.source = .ok ("// a\x0cb\n".toList ++ 'c' :: "lass A \x7b\x7d\n".toList) ∧
      isBlank 'c' = false ∧ node ∈ u.root.walk ∧
      node.span.startByte = (Utf8.encode "// a\x0cb\n".toList).length ∧
      (duplicateImport.candidate u ⟨some node, none⟩).violation.sourceLine = some "b" ∧
      trim (.ofList (around (· == '\n') "// a\x0cb\n".toList ('c' :: "lass A \x7b\x7d\n".toList))) =
        "class A \x7b\x7d" := by
  intro u node
  refine ⟨rfl, ?_, decode?_classUnit _ _ _, by decide, .tail _ (.head _), by decide, ?_, by decide⟩
  · unfold Concrete.CountsRows
    decide
  · rw [sourceLine_candidate_eq, SourceUnit.lines_of_decode? (decode?_classUnit _ _ _)]
    decide

end Rule

end JavaLint
