import JavaLint.Results.Directory

/-!
# Building a results tree

A builder attaches files to the directory that their path names. Directories are made on demand, one for
each path, below the directory of the path before the last slash; the root is the directory of the empty
path. A table remembers which directory was made for which path. Once finalized, the tree takes nothing more.
-/

namespace JavaLint

/-- The path before the last slash, empty for a path without one. -/
def parentPath (path : String) : String :=
  match Text.cutLast? '/' path with
  | some (parent, _) => parent
  | none => ""

/-- Every path but the empty one is longer than the one it lies in. -/
theorem length_parentPath_lt {path : String} (h : path ≠ "") :
    (parentPath path).length < path.length := by
  have hpos : 0 < path.length := by
    rw [← String.length_toList]
    rcases hl : path.toList with _ | ⟨c, s⟩
    · exact absurd (String.toList_eq_nil_iff.1 hl) h
    · simp
  unfold parentPath
  split
  · rename_i parent name hcut
    unfold Text.cutLast? at hcut
    obtain ⟨⟨a, b⟩, hchars, hpair⟩ := Option.map_eq_some_iff.1 hcut
    have hlt := Text.length_cutLastChars_lt hchars
    simp only [Prod.mk.injEq] at hpair
    rw [← hpair.1, ← String.length_toList, String.toList_ofList, ← String.length_toList]
    exact hlt
  · simpa using hpos

/-- A new directory, which holds nothing. -/
def Directory.new (path : String) : Directory :=
  ⟨some path, 0, false, []⟩

/-- A results tree under construction, and the table of the paths that have a directory in it. -/
structure Builder where
  root : Directory
  table : List (String × Directory.Position)
  isFinalized : Bool
  deriving Repr

namespace Builder

/-- The tree that holds nothing but its root. -/
def empty : Builder :=
  ⟨.new "", [("", [])], false⟩

/-- The paths of the table, in the order in which they were registered. -/
def paths (b : Builder) : List String :=
  b.table.map (·.1)

/-- Where the directory of a path is, according to the table. -/
def position? (b : Builder) (path : String) : Option Directory.Position :=
  b.table.lookup path

/-- A step by step change of a builder. What was changed before a failure stays changed. -/
abbrev Program := EStateM Error Builder

/-- Adds a child to the directory at a position, and answers with the position of the child. -/
def attach (position : Directory.Position) (child : FileResults ⊕ Directory) : Program Directory.Position := do
  let b ← get
  match b.root.at? position with
  | none => return position
  | some d =>
    match d.addChild child with
    | .error e => throw e
    | .ok extended =>
      set { b with root := b.root.modifyAt (fun _ => extended) position }
      return position ++ [d.children.length]

/-- Enters a directory into the table. -/
def register (path : String) (position : Directory.Position) : Program Unit :=
  modify fun b => { b with table := b.table ++ [(path, position)] }

/-- Where the directory of a path is. A directory that is not in the table is made: first the directory of
    its parent, then the directory itself, which is registered once it has been attached. -/
def directory (path : String) : Program Directory.Position := do
  match (← get).position? path with
  | some position => return position
  | none =>
    -- The root is registered from the start.
    if _h : path = "" then return []
    else do
      let parent ← directory (parentPath path)
      let position ← attach parent (.inr (.new path))
      register path position
      return position
termination_by path.length
decreasing_by exact length_parentPath_lt _h

/-- Attaches the results of a file to its directory and counts it there. -/
def attachFile (file : FileResults) : Program Unit := do
  if (← get).isFinalized then throw .finalized
  else do
    let position ← directory (parentPath file.path)
    let _ ← attach position (.inl file)
    modify fun b =>
      { b with root := b.root.modifyAt (fun d => { d with fileCount := d.fileCount + 1 }) position }

/-- What a program makes of a builder, unless it fails. -/
def after (b : Builder) (program : Program α) : Except Error Builder :=
  match program.run b with
  | .ok _ b => .ok b
  | .error e _ => .error e

/-- Makes sure that there is a directory for the path. -/
def addDirectory (b : Builder) (path : String) : Except Error Builder :=
  b.after (directory path)

/-- Attaches the results of a file. -/
def addFile (b : Builder) (file : FileResults) : Except Error Builder :=
  b.after (attachFile file)

/-- What attaching a file logs. -/
def addFileLog (file : FileResults) : LogEntry :=
  ⟨.debug, .results, s!"Attached {Text.quoted file.path} to {Text.quoted (parentPath file.path)}"⟩

/-- Seals the whole tree. Finalizing again changes nothing. -/
def finalize (b : Builder) : Builder :=
  if b.isFinalized then b else { b with root := b.root.sealTree, isFinalized := true }

/-- What the first finalization logs. -/
def finalizeLog (b : Builder) : LogEntry :=
  ⟨.info, .results,
    s!"Results tree finalized: {b.root.totalFiles} file(s), {b.table.length} director(ies)"⟩

end Builder

end JavaLint
