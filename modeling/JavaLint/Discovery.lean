import JavaLint.FileTree
import JavaLint.Log

/-!
# Discovery of source files

Finds the Java files below a directory. Directories with certain names are left out, and so are symbolic
links unless they are to be followed. Files come sorted by their path, name by name.
-/

namespace JavaLint

namespace Discovery

/-- The names of directories that hold no sources: build output, caches and metadata. -/
def defaultIgnored : List String :=
  ["build", "target", "out", "bin", "classes", ".gradle", ".m2", "node_modules", ".git", ".svn", ".hg",
    ".vscode", ".idea", ".settings"]

/-- The name is that of a Java file: it ends in `.java`, in any case. -/
def isJavaName (name : String) : Bool :=
  String.ofList ((Path.suffixOf name).toList.map Char.toLower) == ".java"

/-- What is looked for: the directories to leave out, whether links are followed, and which files are kept. -/
structure Scope where
  ignored : List String := defaultIgnored
  followLinks : Bool := false
  keeps : Path → Bool := fun _ => true

/-- A Java file that was met: an entry of its own, or a link. -/
structure Sighting where
  names : List String
  isLink : Bool
  deriving DecidableEq, Repr

/-- A sighting of the file with the given name, if it is a Java file. -/
def sight (shown : List String) (name : String) (isLink : Bool) : List Sighting :=
  if isJavaName name then [⟨shown ++ [name], isLink⟩] else []

mutual

/-- The Java files at and below an entry of a directory. `shown` are the names under which the directory was
    reached, `actual` those that lead to it without links; `enter` answers for links. -/
def sightingsAt (ignored : List String) (enter : List String → List String → String → List Sighting)
    (shown actual : List String) : FileEntry → List Sighting
  | .file name _ => sight shown name false
  | .device name _ => sight shown name false
  | .link name _ => enter shown actual name
  | .directory name entries =>
    if ignored.contains name then []
    else sightingsIn ignored enter (shown ++ [name]) (actual ++ [name]) entries

/-- The Java files at and below a list of entries. -/
def sightingsIn (ignored : List String) (enter : List String → List String → String → List Sighting)
    (shown actual : List String) : List FileEntry → List Sighting
  | [] => []
  | e :: rest =>
    sightingsAt ignored enter shown actual e ++ sightingsIn ignored enter shown actual rest

end

/-- The Java files below a directory. `links` is how many links may still be followed on the way down; every
    link that is entered uses one of them, so that `fuel` above it never runs out. -/
def sightings (tree : FileTree) (scope : Scope) (fuel links : Nat) (shown actual : List String) :
    List Sighting :=
  match fuel with
  | 0 => []
  | fuel + 1 =>
    let enter := fun (shown actual : List String) (name : String) =>
      match tree.lookupFrom links actual [name] with
      -- A link to a directory is never a source itself.
      | .ok (.directory target, left) =>
        if scope.followLinks && !scope.ignored.contains name then
          sightings tree scope fuel left (shown ++ [name]) target
        else []
      | _ => sight shown name true
    sightingsIn scope.ignored enter shown actual (tree.entriesAt actual)

/-- The sighting counts as a source: links do only if they are followed, and the path has to be kept. -/
def isSource (scope : Scope) (s : Sighting) : Bool :=
  (scope.followLinks || !s.isLink) && scope.keeps (.absolute s.names)

/-- Names come before others in the order of paths. -/
def precedes (a b : List String) : Bool :=
  !(decide (b < a))

/-- All Java files met below a directory, under the names that lead to it from the top. -/
def sightingsBelow (tree : FileTree) (scope : Scope) (root : List String) : List Sighting :=
  match tree.lookupFrom FileTree.maxLinks [] root with
  | .ok (.directory actual, links) => sightings tree scope (FileTree.maxLinks + 1) links root actual
  | _ => []

/-- The sources below a root directory, sorted. -/
def find (tree : FileTree) (scope : Scope) (root : Path) : Except Error (List Path) :=
  match tree.resolve root with
  | .error fault => .error (.badPath fault)
  | .ok root =>
    if !tree.contains root then .error (.rootMissing root.text)
    else
      match tree.directory? root with
      | none => .error (.rootNotDirectory root.text)
      | some _ =>
        let sources := (sightingsBelow tree scope root.names).filter (isSource scope)
        .ok (((sources.map (·.names)).mergeSort precedes).map Path.absolute)

/-- What finding the sources below a directory logs, the path of the directory being resolved. -/
def findLog (tree : FileTree) (scope : Scope) (root : Path) (found : List Path) : List LogEntry :=
  let skipped := (sightingsBelow tree scope root.names).filter fun s => s.isLink && !scope.followLinks
  [⟨.info, .discovery, s!"Collecting Java sources under {root.text}"⟩] ++
    skipped.map (fun s => ⟨.debug, .discovery, s!"Skipping symlinked file {(Path.absolute s.names).text}"⟩) ++
      [⟨.info, .discovery, s!"Traversal complete: {found.length} Java file(s) under {root.text}"⟩]

/-- The sources below a root directory, with what finding them logs. -/
def collect (tree : FileTree) (scope : Scope) (root : Path) : Except Error (List Path × List LogEntry) := do
  let found ← find tree scope root
  return (found, findLog tree scope (← (tree.resolve root).mapError .badPath) found)

/-- The path of a source relative to the root, both without links, or the path itself if it lies elsewhere or
    means nothing. Links that lead back to themselves are not passed over. -/
def relativePath (tree : FileTree) (root path : Path) : Except PathFault String :=
  let resolved := do
    let path ← tree.resolve path
    let root ← tree.resolve root
    return (root.names, path.names)
  match resolved with
  | .ok (root, names) =>
    .ok (if root.isPrefixOf names then (Path.mk 0 (names.drop root.length)).text else path.text)
  | .error .nullByte => .ok path.text
  | .error fault => .error fault

/-- Sources together with their relative paths. -/
def relativePaths (tree : FileTree) (root : Path) (paths : List Path) :
    Except PathFault (List (Path × String)) :=
  paths.mapM fun p => return (p, ← relativePath tree root p)

end Discovery

end JavaLint
