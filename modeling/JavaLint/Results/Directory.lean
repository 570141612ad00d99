import JavaLint.Violation

/-!
# The results tree

The violations of files, held in a tree of directories. Every number a directory answers is computed from
what it holds, so totals always agree with the files below. A priority or a threshold is a question put to
the tree and no part of it.
-/

namespace JavaLint

/-- The violations of one file, in the order in which they were detected. -/
structure FileResults where
  path : String
  violations : List Violation
  deriving Repr

namespace FileResults

/-- How many violations have this priority. -/
def countWith (f : FileResults) (priority : Int) : Nat :=
  f.violations.countP (·.hasPriority priority)

/-- The file has a violation at least as severe as this priority. -/
def hasWithin (f : FileResults) (maxPriority : Int) : Bool :=
  f.violations.any (·.isWithin maxPriority)

/-- Whether the file has such a violation can be told: priorities are compared one after another until one
    is found, and none of those before it is refused. -/
def checkWithin (f : FileResults) (maxPriority : Int) : Except Error Unit :=
  match f.violations.find? fun v => !v.isComparable || v.isWithin maxPriority with
  | some v => if v.isComparable then .ok () else .error (.notComparable v.rule.priority)
  | none => .ok ()

/-- One if the file has a violation at least as severe as this priority, otherwise zero. -/
def filesWithin (f : FileResults) (maxPriority : Int) : Nat :=
  if f.hasWithin maxPriority then 1 else 0

/-- How a file of the tree is shown. -/
def display (f : FileResults) : String :=
  s!"FileResults(path={Text.quoted f.path}, violations={f.violations.length})"

end FileResults

/-- A directory of the results tree. `fileCount` is the number of files directly in it, whether they are
    attached or not. A sealed directory takes no more children. -/
structure Directory where
  path : Option String
  fileCount : Int
  isSealed : Bool
  children : List (FileResults ⊕ Directory)
  deriving Repr

namespace Directory

/-- The files attached to a directory, in order. -/
def files (d : Directory) : List FileResults :=
  d.children.filterMap Sum.getLeft?

mutual

/-- All violations of a directory and of the directories below, in tree order. -/
def violations : Directory → List Violation
  | ⟨_, _, _, children⟩ => violationsIn children

/-- All violations of a list of children. -/
def violationsIn : List (FileResults ⊕ Directory) → List Violation
  | [] => []
  | .inl f :: rest => f.violations ++ violationsIn rest
  | .inr d :: rest => d.violations ++ violationsIn rest

end

mutual

/-- How many violations with this priority there are in the tree. -/
def countWith (priority : Int) : Directory → Nat
  | ⟨_, _, _, children⟩ => countWithIn priority children

/-- How many violations with this priority there are in a list of children. -/
def countWithIn (priority : Int) : List (FileResults ⊕ Directory) → Nat
  | [] => 0
  | .inl f :: rest => f.countWith priority + countWithIn priority rest
  | .inr d :: rest => d.countWith priority + countWithIn priority rest

end

/-- How many violations with this priority the files of the directory itself have. -/
def directCountWith (priority : Int) (d : Directory) : Nat :=
  (d.files.flatMap (·.violations)).countP (·.hasPriority priority)

mutual

/-- How many files of the tree have a violation at least as severe as this priority. -/
def filesWithin (maxPriority : Int) : Directory → Nat
  | ⟨_, _, _, children⟩ => filesWithinIn maxPriority children

/-- How many files of a list of children have such a violation. -/
def filesWithinIn (maxPriority : Int) : List (FileResults ⊕ Directory) → Nat
  | [] => 0
  | .inl f :: rest => f.filesWithin maxPriority + filesWithinIn maxPriority rest
  | .inr d :: rest => d.filesWithin maxPriority + filesWithinIn maxPriority rest

end

mutual

/-- Whether files have such a violation can be told for the whole tree. -/
def checkWithin (maxPriority : Int) : Directory → Except Error Unit
  | ⟨_, _, _, children⟩ => checkWithinIn maxPriority children

/-- Whether files have such a violation can be told for a list of children. -/
def checkWithinIn (maxPriority : Int) : List (FileResults ⊕ Directory) → Except Error Unit
  | [] => .ok ()
  | .inl f :: rest => do
    f.checkWithin maxPriority
    checkWithinIn maxPriority rest
  | .inr d :: rest => do
    d.checkWithin maxPriority
    checkWithinIn maxPriority rest

end

/-- How many files of the directory itself have a violation at least as severe as this priority. -/
def directFilesWithin (maxPriority : Int) (d : Directory) : Nat :=
  d.files.countP (·.hasWithin maxPriority)

mutual

/-- The number of files of a directory and of the directories below. -/
def totalFiles : Directory → Int
  | ⟨_, fileCount, _, children⟩ => fileCount + totalFilesIn children

/-- The number of files of the directories in a list of children. -/
def totalFilesIn : List (FileResults ⊕ Directory) → Int
  | [] => 0
  | .inl _ :: rest => totalFilesIn rest
  | .inr d :: rest => d.totalFiles + totalFilesIn rest

end

/-- There is a file in the directory or below. -/
def containsFiles (d : Directory) : Bool :=
  0 < d.totalFiles

mutual

/-- A directory and all directories below it, each before those in it. -/
def directories : Directory → List Directory
  | d@⟨_, _, _, children⟩ => d :: directoriesIn children

/-- All directories at and below a list of children. -/
def directoriesIn : List (FileResults ⊕ Directory) → List Directory
  | [] => []
  | .inl _ :: rest => directoriesIn rest
  | .inr d :: rest => d.directories ++ directoriesIn rest

end

mutual

/-- Seals a directory and all directories below it. -/
def sealTree : Directory → Directory
  | ⟨path, fileCount, _, children⟩ => ⟨path, fileCount, true, sealChildren children⟩

/-- Seals the directories in a list of children. -/
def sealChildren : List (FileResults ⊕ Directory) → List (FileResults ⊕ Directory)
  | [] => []
  | .inl f :: rest => .inl f :: sealChildren rest
  | .inr d :: rest => .inr d.sealTree :: sealChildren rest

end

/-- A directory of a tree, by the numbers of the children that lead to it. Children are only added at the end,
    so a position stays that of the same directory. -/
abbrev Position := List Nat

/-- The directory at a position. -/
def at? (d : Directory) : Position → Option Directory
  | [] => some d
  | i :: rest =>
    match d.children[i]? with
    | some (.inr c) => c.at? rest
    | _ => none

/-- Changes the directory at a position. -/
def modifyAt (f : Directory → Directory) (d : Directory) : Position → Directory
  | [] => f d
  | i :: rest => { d with children := d.children.modify i (·.map id (modifyAt f · rest)) }

/-- Adds a child at the end, unless the directory is sealed. -/
def addChild (d : Directory) (child : FileResults ⊕ Directory) : Except Error Directory :=
  if d.isSealed then .error (.sealedDirectory d.path)
  else .ok { d with children := d.children ++ [child] }

/-- How a directory of the tree is shown. -/
def display (d : Directory) : String :=
  let path := match d.path with
    | some path => Text.quoted path
    | none => Setting.null.quoted
  s!"DirectoryResults(path={path}, children={d.children.length})"

end Directory

end JavaLint
