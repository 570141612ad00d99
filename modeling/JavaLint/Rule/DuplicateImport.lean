import JavaLint.Rule.Visit
import JavaLint.Text.Blank

/-!
# Duplicate imports

Two import declarations of a file are the same if they have the same key: whether they are static, the
identifiers of the imported name, and whether they import everything under it. Every declaration whose
key was met before is found.
-/

namespace JavaLint.DuplicateImport

/-- The kinds of an imported name. -/
def nameKinds : List String := ["scoped_identifier", "identifier"]

/-- The identifiers of a name, in order. -/
def identifiers (source : Bytes) (name : Node) : List String :=
  (name.walk.filter (·.kind == "identifier")).map (·.text source)

/-- The word `static` stands in front of the imported name. -/
def isStatic (source : Bytes) (declaration name : Node) : Bool :=
  let start := declaration.span.startByte
  (Text.words (Utf8.decodeReplacing ((source.drop start).take (name.span.startByte - start)))).contains
    "static"

/-- The declaration imports everything under the name. -/
def isWildcard (declaration : Node) : Bool :=
  !(declaration.childrenOfKind ["asterisk"]).isEmpty

/-- The canonical form of an import declaration, none for one without a name. -/
def key? (source : Bytes) (declaration : Node) : Option String :=
  (declaration.childrenOfKind nameKinds).head?.map fun name =>
    (if isStatic source declaration name then "static " else "") ++
      ".".intercalate (identifiers source name) ++
        (if isWildcard declaration then ".*" else "")

/-- The declarations whose key is among those seen before them, with that key. -/
def repeats (source : Bytes) (seen : List String) : List Node → List (Node × String)
  | [] => []
  | declaration :: rest =>
    match key? source declaration with
    | none => repeats source seen rest
    | some key =>
      if seen.contains key then (declaration, key) :: repeats source seen rest
      else repeats source (key :: seen) rest

/-- The response of the rule to a node. Imports stand at the top of a file, so nothing below the program
    is visited. -/
def respond (source : Bytes) (n : Node) : Response :=
  if n.kind == "program" then
    let found := repeats source [] (n.childrenOfKind ["import_declaration"])
    ⟨⟨found.map fun (declaration, key) => ⟨some declaration, some s!"Duplicate import: {key}"⟩, none⟩, false⟩
  else .pass

end JavaLint.DuplicateImport
