/-!
# Cutting a text at a separator

Each function takes one separating character and leaves it out of the parts.
-/

namespace JavaLint.Text

/-- The parts between the separators; one more than there are separators. `part` is the part being
    read, in reverse. -/
def splitFrom (sep : Char) (part : List Char) : List Char → List (List Char)
  | [] => [part.reverse]
  | c :: s => if c == sep then part.reverse :: splitFrom sep [] s else splitFrom sep (c :: part) s

/-- The parts of a text between the separators. -/
def split (sep : Char) (s : String) : List String :=
  (splitFrom sep [] s.toList).map String.ofList

/-- The characters before and after the first separator, if there is one. -/
def cutFirstChars? (sep : Char) (s : List Char) : Option (List Char × List Char) :=
  match s.dropWhile (· != sep) with
  | [] => none
  | _ :: after => some (s.takeWhile (· != sep), after)

/-- Something is cut away with the first separator. -/
theorem length_cutFirstChars_lt {sep : Char} {s before after : List Char}
    (h : cutFirstChars? sep s = some (before, after)) : after.length < s.length := by
  unfold cutFirstChars? at h
  split at h
  · simp at h
  · rename_i c rest hrest
    simp only [Option.some.injEq, Prod.mk.injEq] at h
    have hle : (s.dropWhile (· != sep)).length ≤ s.length := (List.dropWhile_sublist _).length_le
    rw [hrest, List.length_cons, h.2] at hle
    omega

/-- What stands before and after the first separator, if there is one. -/
def cutFirst? (sep : Char) (s : String) : Option (String × String) :=
  (cutFirstChars? sep s.toList).map fun (before, after) => (String.ofList before, String.ofList after)

/-- The characters before and after the last separator, if there is one. -/
def cutLastChars? (sep : Char) (s : List Char) : Option (List Char × List Char) :=
  (cutFirstChars? sep s.reverse).map fun (after, before) => (before.reverse, after.reverse)

/-- Something is cut away with the last separator. -/
theorem length_cutLastChars_lt {sep : Char} {s before after : List Char}
    (h : cutLastChars? sep s = some (before, after)) : before.length < s.length := by
  unfold cutLastChars? at h
  obtain ⟨⟨a, b⟩, hcut, hpair⟩ := Option.map_eq_some_iff.1 h
  have := length_cutFirstChars_lt hcut
  simp only [Prod.mk.injEq] at hpair
  rw [← hpair.1]
  simpa using this

/-- What stands before and after the last separator, if there is one. -/
def cutLast? (sep : Char) (s : String) : Option (String × String) :=
  (cutLastChars? sep s.toList).map fun (before, after) => (String.ofList before, String.ofList after)

end JavaLint.Text
