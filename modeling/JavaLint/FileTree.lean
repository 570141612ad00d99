import JavaLint.Error
import JavaLint.Path
import JavaLint.Syntax.Concrete

/-!
# File trees

A tree of files, directories, symbolic links and devices, and the two ways of following a path in it.
`lookup` goes to the entry that a path names, as reading does: every directory on the way has to exist, and
at most forty links are followed. `realPath` computes the path without links: names that do not exist are
kept as they are, and so is everything from a link on that leads back to itself. `resolve` refuses such a
link if it is still on the way.
-/

namespace JavaLint

/-- What reading gives: bytes, with the concrete syntax tree that they have, or the fault that stopped it. -/
abbrev Content := Except AccessFault (Bytes × Concrete)

/-- An entry of a directory. Files and devices come with what reading them gives. -/
inductive FileEntry where
  | file (name : String) (content : Content)
  | directory (name : String) (entries : List FileEntry)
  | link (name target : String)
  | device (name : String) (content : Content)
  deriving Repr

namespace FileEntry

/-- The name of an entry. -/
def name : FileEntry → String
  | .file name _ | .directory name _ | .link name _ | .device name _ => name

/-- The entry with the given name in a list of entries. -/
def named? (entries : List FileEntry) (name : String) : Option FileEntry :=
  entries.find? (·.name == name)

/-- The entries of the directory that is reached through the given directories. -/
def below? (entries : List FileEntry) : List String → Option (List FileEntry)
  | [] => some entries
  | name :: rest =>
    match named? entries name with
    | some (.directory _ inner) => below? inner rest
    | _ => none

/-- Puts an entry in place of the one with its name, or at the end. -/
def replace (entry : FileEntry) : List FileEntry → List FileEntry
  | [] => [entry]
  | e :: rest => if e.name == entry.name then entry :: rest else e :: replace entry rest

/-- Puts an entry into the directory with the given names, and makes the directories that are not there. -/
def insert (entry : FileEntry) : List String → List FileEntry → List FileEntry
  | [], entries => replace entry entries
  | name :: rest, entries =>
    let inner := match named? entries name with
      | some (.directory _ inner) => inner
      | _ => []
    replace (.directory name (insert entry rest inner)) entries

mutual

/-- The number of links at and below an entry. -/
def linkCount : FileEntry → Nat
  | .directory _ entries => linkCountIn entries
  | .link .. => 1
  | .file .. | .device .. => 0

/-- The number of links at and below a list of entries. -/
def linkCountIn : List FileEntry → Nat
  | [] => 0
  | e :: rest => e.linkCount + linkCountIn rest

end

end FileEntry

/-- A file tree, and the directory in it that relative paths start from. -/
structure FileTree where
  entries : List FileEntry
  workingDirectory : List String := []
  deriving Repr

/-- What a path leads to. A directory is given by the names that lead to it without links. -/
inductive Found where
  | directory (names : List String)
  | file (content : Content)
  | device (content : Content)
  deriving Repr

namespace FileTree

/-- The entries of the directory with the given names, none if there is no such directory. -/
def entriesAt (tree : FileTree) (names : List String) : List FileEntry :=
  (FileEntry.below? tree.entries names).getD []

/-- Where a path starts. -/
def start (tree : FileTree) (p : Path) : List String :=
  if p.isAbsolute then [] else tree.workingDirectory

/-- How many links one look-up follows. -/
def maxLinks : Nat := 40

/-- Follows names from a directory, with the number of links that may still be followed. The answer holds
    how many are left. -/
def lookupFrom (tree : FileTree) (links : Nat) (directory : List String) :
    List String → Except AccessFault (Found × Nat)
  | [] => .ok (.directory directory, links)
  | name :: rest =>
    if name == ".." then tree.lookupFrom links directory.dropLast rest
    else
      match FileEntry.named? (tree.entriesAt directory) name with
      | none => .error .notFound
      | some (.directory _ _) => tree.lookupFrom links (directory ++ [name]) rest
      | some (.file _ content) =>
        if rest.isEmpty then .ok (.file content, links) else .error .notDirectory
      | some (.device _ content) =>
        if rest.isEmpty then .ok (.device content, links) else .error .notDirectory
      | some (.link _ target) =>
        -- The target is followed from the directory of the link, and what is left of the path after it.
        match links with
        | 0 => .error .tooManyLinks
        | links + 1 =>
          let path := Path.ofString target
          tree.lookupFrom links (if path.isAbsolute then [] else directory) (path.names ++ rest)
termination_by names => (links, names.length)

/-- What a path leads to. -/
def lookup (tree : FileTree) (p : Path) : Except AccessFault Found :=
  (tree.lookupFrom maxLinks (tree.start p) p.names).map (·.1)

/-- What reading at a path gives. A path that holds a null byte is not even looked up. -/
def read (tree : FileTree) (p : Path) : Except PathFault Content :=
  if p.hasNull then .error .nullByte
  else
    match tree.lookup p with
    | .ok (.file content) | .ok (.device content) => .ok content
    | .ok (.directory _) => .ok (.error .isDirectory)
    | .error fault => .ok (.error fault)

/-- Whether what is at the path may be read is known before it is read. -/
def mayRead (tree : FileTree) (p : Path) : Bool :=
  match tree.lookup p with
  | .ok (.file (.error fault)) | .ok (.device (.error fault)) => fault != .permissionDenied
  | _ => true

/-- The path leads to something. -/
def contains (tree : FileTree) (p : Path) : Bool :=
  tree.lookup p matches .ok _

/-- The names of the directory that a path leads to, without links. -/
def directory? (tree : FileTree) (p : Path) : Option (List String) :=
  match tree.lookup p with
  | .ok (.directory names) => some names
  | _ => none

/-- Names with double dots taken back. -/
def withoutDots (names : List String) : List String :=
  names.foldl (fun done name => if name == ".." then done.dropLast else done ++ [name]) []

/-- Names without links, and whether no link leads back to itself. `active` are the links being followed. A
    name with a null byte is refused as soon as it is met. -/
def resolveFrom (tree : FileTree) (fuel : Nat) (active : List (List String)) (directory : List String) :
    List String → Except PathFault (List String × Bool)
  | [] => .ok (directory, true)
  | name :: rest =>
    if name == ".." then tree.resolveFrom fuel active directory.dropLast rest
    else if Path.isNullName name then .error .nullByte
    else
      let here := directory ++ [name]
      match FileEntry.named? (tree.entriesAt directory) name with
      | some (.link _ target) =>
        -- Links that are being followed are distinct, so there are never more of them than links.
        match fuel with
        | 0 => .ok (here ++ rest, false)
        | fuel + 1 =>
          if active.contains here then .ok (here ++ rest, false)
          else
            let path := Path.ofString target
            match tree.resolveFrom fuel (here :: active) (if path.isAbsolute then [] else directory)
              path.names with
            | .ok (names, true) => tree.resolveFrom (fuel + 1) active names rest
            | .ok (names, false) => .ok (names ++ rest, false)
            | .error fault => .error fault
      | _ => tree.resolveFrom fuel active here rest
termination_by names => (fuel, names.length)

/-- The names of a path without links, and whether no link leads back to itself. -/
def resolution (tree : FileTree) (p : Path) : Except PathFault (List String × Bool) :=
  tree.resolveFrom (FileEntry.linkCountIn tree.entries + 1) [] (tree.start p) p.names

/-- The absolute path without links, double dots taken back. A link that leads back to itself is kept, with
    all that comes after it. -/
def realPath (tree : FileTree) (p : Path) : Except PathFault Path :=
  (tree.resolution p).map fun (names, _) => .absolute (withoutDots names)

/-- The absolute path without links, unless a link that leads back to itself is left in it. -/
def resolve (tree : FileTree) (p : Path) : Except PathFault Path := do
  let real ← tree.realPath p
  if real.hasNull then .error .nullByte
  else
    match tree.lookup real with
    | .error fault => if fault = .tooManyLinks then .error (.linkLoop real.text) else .ok real
    | .ok _ => .ok real

end FileTree

end JavaLint
