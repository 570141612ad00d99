import JavaLint.Text.Split

/-!
# Paths

A path is a list of names under a root of none, one or two slashes. Empty names and single dots are
dropped when a path is read; double dots are kept.
-/

namespace JavaLint

/-- A path in a file tree. `slashes` is zero for a relative path. -/
structure Path where
  slashes : Nat
  names : List String
  deriving DecidableEq, Repr

namespace Path

/-- Exactly two leading slashes are a root of their own; any other number above zero means one. -/
def rootSlashes (leading : Nat) : Nat :=
  if leading == 2 then 2 else min leading 1

/-- Reads a path. -/
def ofString (s : String) : Path where
  slashes := rootSlashes (s.toList.takeWhile (· == '/')).length
  names := (Text.split '/' s).filter fun name => name != "" && name != "."

/-- The character that no path may hold. -/
def null : Char := Char.ofNat 0

/-- The name holds the character that no path may hold. -/
def isNullName (name : String) : Bool :=
  name.toList.contains null

/-- A name of the path holds the character that no path may hold. -/
def hasNull (p : Path) : Bool :=
  p.names.any isNullName

/-- The absolute path of the given names. -/
def absolute (names : List String) : Path :=
  ⟨1, names⟩

/-- The path starts at the root. -/
def isAbsolute (p : Path) : Bool :=
  p.slashes != 0

/-- The text of a path; the relative path without names is a dot. -/
def text (p : Path) : String :=
  if p.slashes == 0 && p.names.isEmpty then "."
  else String.ofList (List.replicate p.slashes '/') ++ "/".intercalate p.names

/-- `p.join q` is `q` seen from `p`. -/
def join (p q : Path) : Path :=
  if q.isAbsolute then q else ⟨p.slashes, p.names ++ q.names⟩

/-- The directory that a path lies in. -/
def parent (p : Path) : Path :=
  ⟨p.slashes, p.names.dropLast⟩

/-- The last name of a path, empty if it has none. -/
def name (p : Path) : String :=
  p.names.getLast?.getD ""

/-- The part of a name from its last dot on, unless the dot is its first or last character. -/
def suffixOf (name : String) : String :=
  match Text.cutLast? '.' name with
  | some (stem, extension) => if stem.isEmpty || extension.isEmpty then "" else "." ++ extension
  | none => ""

end Path

end JavaLint
