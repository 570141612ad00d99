import JavaLint.FileTree

/-!
# Snapshots of source trees

A snapshot is a file tree written line by line, with the concrete syntax tree of every file. It is what the
command reads:

* `dir PATH` is a directory;
* `link TARGET PATH` is a symbolic link, and its target has no blanks;
* `file HEX PATH` is a file with its bytes in base sixteen, a dash for none;
* `node DEPTH FLAGS START END ROW COLUMN ROW COLUMN KIND FIELD` is a node of the tree of the file before it.
  Nodes come before their children, which are one deeper; the depth of the root is zero. The flags add up:
  one for a named node, two for a missing one, four for one with an error. A dash is no field.
-/

namespace JavaLint.Snapshot

/-- One line of a snapshot. -/
inductive Line where
  | directory (path : String)
  | link (target path : String)
  | file (content : Bytes) (path : String)
  | node (depth : Nat) (node : Concrete)
  deriving Repr

/-- The value of a digit in base sixteen. -/
def hexDigit? (c : Char) : Option Nat :=
  if '0' ≤ c ∧ c ≤ '9' then some (c.toNat - '0'.toNat)
  else if 'a' ≤ c ∧ c ≤ 'f' then some (c.toNat - 'a'.toNat + 10)
  else none

/-- Reads bytes, two digits each. -/
def readBytes? : List Char → Option Bytes
  | [] => some []
  | high :: low :: rest => do
    return UInt8.ofNat (16 * (← hexDigit? high) + (← hexDigit? low)) :: (← readBytes? rest)
  | [_] => none

/-- Reads a node without its children. -/
def readNode? (words : List String) : Option Line := do
  match words with
  | [depth, flags, start, stop, startRow, startColumn, endRow, endColumn, kind, field] =>
    let flags ← flags.toNat?
    let span : Span :=
      ⟨← start.toNat?, ← stop.toNat?, ← startRow.toNat?, ← startColumn.toNat?, ← endRow.toNat?,
        ← endColumn.toNat?⟩
    some (.node (← depth.toNat?)
      ⟨kind, if field == "-" then none else some field, flags % 2 == 1, flags / 2 % 2 == 1,
        flags / 4 % 2 == 1, span, []⟩)
  | _ => none

/-- Reads a line. -/
def readLine? (line : String) : Option Line :=
  match Text.cutFirst? ' ' line with
  | some ("dir", path) => some (.directory path)
  | some ("link", rest) => (Text.cutFirst? ' ' rest).map fun (target, path) => .link target path
  | some ("file", rest) => do
    let (content, path) ← Text.cutFirst? ' ' rest
    return .file (← if content == "-" then some [] else readBytes? content.toList) path
  | some ("node", rest) => readNode? (Text.split ' ' rest)
  | _ => none

/-- The trees of nodes that come before their children, each with its depth. A node takes the deeper trees
    after it as its children. -/
def forest : List (Nat × Concrete) → List (Nat × Concrete)
  | [] => []
  | (depth, node) :: rest =>
    let after := forest rest
    (depth, { node with children := (after.takeWhile (depth < ·.1)).map (·.2) }) ::
      after.dropWhile (depth < ·.1)

/-- A file of a snapshot, or another entry, at its path. -/
structure Item where
  path : String
  make : String → FileEntry

/-- The nodes at the beginning of some lines, and the items after them. -/
def items : List Line → List (Nat × Concrete) × List Item
  | [] => ([], [])
  | line :: rest =>
    let (nodes, after) := items rest
    match line with
    | .node depth node => ((depth, node) :: nodes, after)
    | .directory path => ([], ⟨path, (.directory · [])⟩ :: after)
    | .link target path => ([], ⟨path, (.link · target)⟩ :: after)
    | .file content path =>
      let tree := ((forest nodes).head?.map (·.2)).getD default
      ([], ⟨path, (.file · (.ok (content, tree)))⟩ :: after)

/-- Puts an item into a tree. -/
def insert (entries : List FileEntry) (item : Item) : List FileEntry :=
  let names := (Path.ofString item.path).names
  FileEntry.insert (item.make (names.getLast?.getD "")) names.dropLast entries

/-- Reads a snapshot, or gives the number of the first line that is malformed. Paths start at the root. -/
def read (lines : List String) : Except Nat FileTree := do
  let lines ← (lines.zipIdx 1).mapM fun (line, number) =>
    match readLine? line with
    | some line => .ok line
    | none => .error number
  return { entries := (items lines).2.foldl insert [] }

end JavaLint.Snapshot
