import JavaLint.Proofs.Results.Entries

/-!
# Positions in a results tree

A position leads to a directory by the numbers of the children on the way. A change at a position replaces
the part of the table of directories that belongs to this directory. Children are only ever added at the
end, and then every position still leads to a directory with the same path.

- `at?_append`, `mem_directories_of_at?`: where a position leads
- `exists_split_of_at?_cons`, `exists_modifyAt_eq`: what a change at a position does to the tree and to the table
- `Keeps`, `Keeps.exists_at?_modifyAt`: changes after which all positions lead where they led
- `withChild`: the change that adds a child
-/

namespace JavaLint.Directory

variable {root d t : Directory} {f : Directory → Directory} {position : Position}

/-! ## Where a position leads -/

/-- The empty position is that of the directory itself. -/
@[simp]
theorem at?_nil (d : Directory) : d.at? [] = some d := by
  rw [at?]

/-- The first number of a position is that of a child. -/
private theorem at?_cons_eq_some {i : Nat} {rest : Position} :
    d.at? (i :: rest) = some t ↔ ∃ c, d.children[i]? = some (.inr c) ∧ c.at? rest = some t := by
  rw [at?]
  split
  · next c hc => simp [hc]
  · next hother =>
    simp only [reduceCtorEq, false_iff, not_exists, not_and]
    exact fun c hc => (hother c hc).elim

/-- A position can be followed in two parts. -/
theorem at?_append (d : Directory) (first second : Position) :
    d.at? (first ++ second) = (d.at? first).bind (·.at? second) := by
  induction first generalizing d with
  | nil => rw [List.nil_append, at?_nil, Option.bind_some]
  | cons i rest ih =>
    rw [List.cons_append, at?, at?]
    split
    · exact ih _
    · rfl

/-- Every position leads to a directory of the tree. -/
theorem mem_directories_of_at? (h : root.at? position = some d) : d ∈ root.directories := by
  induction position generalizing root with
  | nil =>
    obtain rfl := Option.some.inj (root.at?_nil.symm.trans h)
    exact self_mem_directories root
  | cons i rest ih =>
    obtain ⟨c, hc, hd⟩ := at?_cons_eq_some.1 h
    -- the first number is that of a directory in the root
    have hmem : c ∈ root.subdirectories := mem_subdirectories.2 (List.mem_of_getElem? hc)
    exact mem_directories_trans (mem_directories_of_mem_subdirectories (self_mem_directories root) hmem) (ih hd)

/-- Sealing a tree moves nothing. -/
theorem at?_sealTree (d : Directory) (position : Position) :
    d.sealTree.at? position = (d.at? position).map sealTree := by
  induction position generalizing d with
  | nil => rw [at?_nil, at?_nil, Option.map_some]
  | cons i rest ih =>
    rw [at?, at?, children_sealTree, List.getElem?_map]
    -- a number that leads to no directory still leads to none
    cases d.children[i]? with
    | none => rfl
    | some child =>
      cases child with
      | inl file => rfl
      | inr c => exact ih c

/-! ## Changes at a position -/

/-- A position below the root leads through one child, and a change there leaves the other children alone. -/
theorem exists_split_of_at?_cons {i : Nat} {rest : Position} (ht : root.at? (i :: rest) = some t) :
    ∃ left c right, root.children = left ++ .inr c :: right ∧ c.at? rest = some t ∧
      ∀ f, root.modifyAt f (i :: rest) = { root with children := left ++ .inr (c.modifyAt f rest) :: right } := by
  obtain ⟨c, hc, hrest⟩ := at?_cons_eq_some.1 ht
  obtain ⟨hlt, hchild⟩ := List.getElem?_eq_some_iff.1 hc
  -- the child is the one with the number, with those before and those after it
  refine ⟨root.children.take i, c, root.children.drop (i + 1), ?_, hrest, fun f => ?_⟩
  · rw [← hchild, ← List.drop_eq_getElem_cons hlt, List.take_append_drop]
  · rw [modifyAt, List.modify_eq_take_cons_drop hlt, hchild, Sum.map_inr]

/-- Only the directory at the position matters to a change there. -/
theorem modifyAt_congr {g : Directory → Directory} (ht : root.at? position = some t) (h : f t = g t) :
    root.modifyAt f position = root.modifyAt g position := by
  induction position generalizing root with
  | nil =>
    obtain rfl := Option.some.inj (root.at?_nil.symm.trans ht)
    exact h
  | cons i rest ih =>
    obtain ⟨left, c, right, -, hrest, hmodify⟩ := exists_split_of_at?_cons ht
    rw [hmodify, hmodify, ih hrest]

/-- What stands at a position after it was changed. -/
theorem at?_modifyAt_self (ht : root.at? position = some t) :
    (root.modifyAt f position).at? position = some (f t) := by
  induction position generalizing root with
  | nil =>
    obtain rfl := Option.some.inj (root.at?_nil.symm.trans ht)
    rw [modifyAt, at?_nil]
  | cons i rest ih =>
    obtain ⟨c, hc, hrest⟩ := at?_cons_eq_some.1 ht
    refine at?_cons_eq_some.2 ⟨c.modifyAt f rest, ?_, ih hrest⟩
    rw [modifyAt, List.getElem?_modify_eq, hc]
    rfl

/-- The entries of a directory with one child picked out. -/
private theorem entries_of_children_eq {left right : List (FileResults ⊕ Directory)} {c : Directory}
    (h : d.children = left ++ .inr c :: right) :
    d.entries = d.entry :: (left.filterMap Sum.getRight?).flatMap entries ++ c.entries ++
      (right.filterMap Sum.getRight?).flatMap entries := by
  rw [entries_eq_cons, entriesBelow, subdirectories, h]
  simp

/-- A change that keeps the path of the directory at a position replaces the entries of this directory and of
    those below it, and leaves all others as they are. -/
theorem exists_modifyAt_eq (ht : root.at? position = some t) (hpath : (f t).path = t.path) :
    (root.modifyAt f position).path = root.path ∧ ∃ before after,
      root.entries = before ++ t.entries ++ after ∧
        (root.modifyAt f position).entries = before ++ (f t).entries ++ after := by
  induction position generalizing root with
  | nil =>
    obtain rfl := Option.some.inj (root.at?_nil.symm.trans ht)
    exact ⟨hpath, [], [], by simp, by simp [modifyAt]⟩
  | cons i rest ih =>
    obtain ⟨left, c, right, hchildren, hrest, hmodify⟩ := exists_split_of_at?_cons ht
    obtain ⟨hsame, before, after, hold, hnew⟩ := ih hrest
    have hchildren' : (root.modifyAt f (i :: rest)).children = left ++ .inr (c.modifyAt f rest) :: right := by
      rw [hmodify]
    -- the directory itself keeps its entry: same files, same paths in the same order
    have hentry : (root.modifyAt f (i :: rest)).entry = root.entry := by
      rw [entry, entry, files, files, subdirectories, subdirectories, hchildren', hchildren, hmodify]
      simp [hsame, List.filterMap_cons]
    -- around the part that is replaced stand the root, and what comes from the other children
    refine ⟨by rw [hmodify], root.entry :: (left.filterMap Sum.getRight?).flatMap entries ++ before,
      after ++ (right.filterMap Sum.getRight?).flatMap entries, ?_, ?_⟩
    · rw [entries_of_children_eq hchildren, hold]
      simp only [List.append_assoc, List.cons_append]
    · rw [entries_of_children_eq hchildren', hentry, hnew]
      simp only [List.append_assoc, List.cons_append]

/-! ## Changes that keep positions -/

/-- The change keeps the path of a directory and the children that it has. -/
structure Keeps (f : Directory → Directory) : Prop where
  path : ∀ d, (f d).path = d.path
  children : ∀ d, d.children <+: (f d).children

/-- After such a change every position leads to a directory with the path that it led to before. -/
theorem Keeps.exists_at?_modifyAt (h : Keeps f) {other : Position} (hd : root.at? other = some d) :
    ∃ d', (root.modifyAt f position).at? other = some d' ∧ d'.path = d.path := by
  -- the two positions are followed together until they part
  induction position generalizing root other with
  | nil =>
    rw [modifyAt]
    cases other with
    | nil =>
      obtain rfl := Option.some.inj (root.at?_nil.symm.trans hd)
      exact ⟨f root, at?_nil _, h.path root⟩
    | cons j more =>
      obtain ⟨c, hc, hmore⟩ := at?_cons_eq_some.1 hd
      obtain ⟨hlt, hchild⟩ := List.getElem?_eq_some_iff.1 hc
      -- the changed directory is above the other position, and kept its children
      have hc' : (f root).children[j]? = some (.inr c) := by
        rw [← hchild]
        exact List.prefix_iff_getElem?.1 (h.children root) j hlt
      exact ⟨d, at?_cons_eq_some.2 ⟨c, hc', hmore⟩, rfl⟩
  | cons i rest ih =>
    cases other with
    | nil =>
      obtain rfl := Option.some.inj (root.at?_nil.symm.trans hd)
      exact ⟨_, at?_nil _, rfl⟩
    | cons j more =>
      obtain ⟨c, hc, hmore⟩ := at?_cons_eq_some.1 hd
      by_cases hij : i = j
      · subst hij
        obtain ⟨d', hd', hpath⟩ := ih hmore
        refine ⟨d', at?_cons_eq_some.2 ⟨c.modifyAt f rest, ?_, hd'⟩, hpath⟩
        rw [modifyAt, List.getElem?_modify_eq, hc]
        rfl
      · -- the other position leads into another child, which was not touched
        refine ⟨d, at?_cons_eq_some.2 ⟨c, ?_, hmore⟩, rfl⟩
        exact (List.getElem?_modify_ne _ _ hij).trans hc

/-- The directory with one more child. -/
def withChild (child : FileResults ⊕ Directory) (d : Directory) : Directory :=
  { d with children := d.children ++ [child] }

/-- The directory with one more file counted. -/
def countOne (d : Directory) : Directory :=
  { d with fileCount := d.fileCount + 1 }

/-- A child that is added comes last, so the others keep their numbers. -/
theorem keeps_withChild (child : FileResults ⊕ Directory) : Keeps (withChild child) where
  path _ := rfl
  children _ := List.prefix_append _ _

/-- Counting a file changes no child. -/
theorem keeps_countOne : Keeps countOne where
  path _ := rfl
  children _ := List.prefix_refl _

/-- A directory that is added as a child stands behind those that were there. -/
theorem at?_withChild (ht : root.at? position = some t) (c : Directory) :
    (root.modifyAt (withChild (.inr c)) position).at? (position ++ [t.children.length]) = some c := by
  rw [at?_append, at?_modifyAt_self ht, Option.bind_some]
  refine at?_cons_eq_some.2 ⟨c, ?_, at?_nil c⟩
  rw [withChild, List.getElem?_concat_length]

end JavaLint.Directory
