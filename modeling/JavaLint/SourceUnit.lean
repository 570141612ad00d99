import JavaLint.Error
import JavaLint.Log
import JavaLint.Syntax.Node
import JavaLint.Text.Blank
import JavaLint.Text.Lines
import JavaLint.Text.Split

/-!
# Source units

A source unit is one source file that could be parsed: its path, its bytes and its syntax tree, with the
facts that rules ask of it. A source that is not valid UTF-8 or whose tree is marked as faulty has no
unit, only a parse failure.
-/

namespace JavaLint

/-- A parsed source file. `path` is the path it is known under, with `/` between the names. -/
structure SourceUnit where
  path : String
  source : Bytes
  root : Node
  deriving Repr

namespace SourceUnit

/-- The kinds of type declarations. -/
def typeDeclarationKinds : List String :=
  ["class_declaration", "interface_declaration", "enum_declaration", "record_declaration",
    "annotation_type_declaration"]

/-- The kinds of declarations that can be called. -/
def callableKinds : List String := ["method_declaration", "constructor_declaration"]

/-- The last name of the path. -/
def fileName (u : SourceUnit) : String :=
  match Text.cutLast? '/' u.path with
  | some (_, name) => name
  | none => u.path

/-- The lines of the source. -/
def lines (u : SourceUnit) : List String :=
  Text.lines (Utf8.decodeReplacing u.source)

/-- The trimmed text of a line, counted from one, if the source has that line. -/
def sourceLine? (u : SourceUnit) (line : Int) : Option String :=
  if line < 1 then none else (u.lines[(line - 1).toNat]?).map Text.trim

/-- The package named by the first package declaration that names one. -/
def packageName? (u : SourceUnit) : Option String :=
  (u.root.childrenOfKind ["package_declaration"]).findSome? fun declaration =>
    (declaration.children.find? (["identifier", "scoped_identifier"].contains ·.kind)).map fun name =>
      Text.compact (name.text u.source)

/-- The name of the first type declared at the top of the file that has one. -/
def primaryType? (u : SourceUnit) : Option String :=
  (u.root.childrenOfKind typeDeclarationKinds).findSome? fun declaration =>
    (declaration.child? "name").map (·.text u.source)

/-- The primary type with its package in front. -/
def qualifiedType? (u : SourceUnit) : Option String :=
  u.primaryType?.map fun type =>
    match u.packageName? with
    | some package => if package.isEmpty then type else package ++ "." ++ type
    | none => type

/-- How many nodes a tree has, and how many of them declare something that can be called. -/
def treeSize (root : Node) : Nat × Nat :=
  (root.walk.length, root.walk.countP (callableKinds.contains ·.kind))

/-- The unit of a source with the given concrete tree. Bytes that are not valid UTF-8 fail before the
    tree is looked at. -/
def parse (path : String) (source : Bytes) (tree : Concrete) : Except ParseFailure SourceUnit :=
  match Utf8.decode? source with
  | .error fault => .error ⟨path, .notUtf8 fault⟩
  | .ok _ =>
    if tree.hasError then .error ⟨path, .syntaxError tree.firstErrorLine⟩
    else .ok ⟨path, source, Node.ofConcrete tree⟩

/-- What parsing a source logs. -/
def parseLog (path : String) (source : Bytes) (tree : Concrete) : List LogEntry :=
  match Utf8.decode? source with
  | .error _ => []
  | .ok _ =>
    let outcome := if tree.hasError then "completed with errors" else "succeeded"
    let parsed : LogEntry :=
      ⟨.debug, .parsing, s!"Parse {outcome}: {source.length} byte(s), root={tree.kind}"⟩
    if tree.hasError then
      let line := match tree.firstErrorLine with
        | some line => toString line
        | none => Setting.null.display
      [parsed, ⟨.warning, .sourceUnit, s!"File {path} has syntax errors near line {line}"⟩]
    else
      let (nodes, callables) := treeSize (Node.ofConcrete tree)
      [parsed, ⟨.info, .sourceUnit, s!"Parsed {path}: {nodes} nodes, {callables} method(s)"⟩]

end SourceUnit

end JavaLint
