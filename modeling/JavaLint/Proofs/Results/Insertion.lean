import JavaLint.Proofs.Results.Placement
import JavaLint.Proofs.Results.Positions

/-!
# Inserting into a results tree

Adding a child to a directory changes one entry of the table of directories and brings the entries of the
child. From this follows what each insertion keeps: a well-placed tree stays well-placed, an open one stays
open, and the builder's own table says of every path where its directory is.

- `modifyAt_entries`, `withChild_entries`: what a change at a position does to the entries
- `WellPlaced.of_updateAt`, `IsOpen.of_updateAt`: when such a change keeps the tree as it should be
- `Builder.IsOpen`: the builder can be relied on, and takes everything
- `Builder.Takes.isOpen_grow`, `Builder.Makes.isOpen`: one directory that is made, and a chain of them
- `Builder.directory_spec`: the directories that a path asks for
- `Builder.attachFile_spec`: a file that is attached and counted
-/

namespace JavaLint

namespace Directory

/-! ## Entries of a changed directory -/

/-- Changes the entry with the given path. -/
def Entry.updateAt (path : String) (g : Entry → Entry) (e : Entry) : Entry :=
  if e.path = some path then g e else e

/-- The entry of a directory after a child was added to it. -/
def Entry.add (child : FileResults ⊕ Directory) (e : Entry) : Entry :=
  match child with
  | .inl file => { e with files := e.files ++ [file] }
  | .inr d => { e with folders := e.folders ++ [d.path] }

/-- The entries that a child brings along. -/
def entriesOf : FileResults ⊕ Directory → List Entry
  | .inl _ => []
  | .inr d => d.entries

/-- A child does not change the path of its directory. -/
@[simp]
theorem Entry.add_path (child : FileResults ⊕ Directory) (e : Entry) : (e.add child).path = e.path := by
  cases child <;> rfl

/-- A change that keeps paths keeps the paths of the table. -/
private theorem map_path_updateAt {g : Entry → Entry} (hg : ∀ e, (g e).path = e.path) (path : String)
    (table : List Entry) : (table.map (Entry.updateAt path g)).map (·.path) = table.map (·.path) := by
  rw [List.map_map]
  refine List.map_congr_left fun e _ => ?_
  simp only [Function.comp_apply, Entry.updateAt]
  split
  · exact hg e
  · rfl

/-- If no path is taken twice, only one entry is changed. -/
private theorem map_updateAt_of_nodup {path : String} {g : Entry → Entry} {before after : List Entry} {e : Entry}
    (hnodup : ((before ++ e :: after).map (·.path)).Nodup) (he : e.path = some path) :
    (before ++ e :: after).map (Entry.updateAt path g) = before ++ g e :: after := by
  simp only [List.map_append, List.map_cons, List.nodup_append, List.nodup_cons, List.mem_cons,
    List.mem_map] at hnodup
  obtain ⟨-, ⟨hafter, -⟩, hbefore⟩ := hnodup
  -- an entry on either side has another path, and stays as it is
  have hsame : ∀ x, x.path ≠ some path → Entry.updateAt path g x = x := by
    intro x hx
    rw [Entry.updateAt, if_neg hx]
  have hb : before.map (Entry.updateAt path g) = before := by
    refine (List.map_congr_left fun x hx => ?_).trans (List.map_id before)
    exact hsame x fun heq => hbefore x.path ⟨x, hx, rfl⟩ e.path (.inl rfl) (heq.trans he.symm)
  have ha : after.map (Entry.updateAt path g) = after := by
    refine (List.map_congr_left fun x hx => ?_).trans (List.map_id after)
    exact hsame x fun heq => hafter ⟨x, hx, heq.trans he.symm⟩
  rw [List.map_append, List.map_cons, hb, ha, Entry.updateAt, if_pos he]

/-- A change of the directory with a path changes its entry and adds what comes new below it. -/
theorem modifyAt_entries {root t : Directory} {path : String} {position : Position} {f : Directory → Directory}
    {g : Entry → Entry} {extra : List Entry} (hnodup : (root.entries.map (·.path)).Nodup)
    (ht : root.at? position = some t) (htpath : t.path = some path) (hpath : (f t).path = t.path)
    (hentry : (f t).entry = g t.entry) (hbelow : (f t).entriesBelow = t.entriesBelow ++ extra) :
    (root.modifyAt f position).path = root.path ∧
      (root.modifyAt f position).entries.Perm (extra ++ root.entries.map (Entry.updateAt path g)) := by
  obtain ⟨hroot, before, after, hold, hnew⟩ := exists_modifyAt_eq ht hpath
  refine ⟨hroot, ?_⟩
  -- what stood below the directory stays; the entry of the directory stands right before it
  have hsplit : root.entries = before ++ t.entry :: (t.entriesBelow ++ after) := by
    rw [hold, entries_eq_cons, List.append_assoc, List.cons_append]
  rw [hsplit] at hnodup
  rw [hsplit, map_updateAt_of_nodup hnodup htpath, hnew, entries_eq_cons, hentry, hbelow]
  -- both sides hold the same parts; only the new entries stand elsewhere
  calc before ++ g t.entry :: (t.entriesBelow ++ extra) ++ after
      = (before ++ g t.entry :: t.entriesBelow) ++ extra ++ after := by simp
    List.Perm _ (extra ++ (before ++ g t.entry :: t.entriesBelow) ++ after) :=
        List.perm_append_comm.append_right after
    _ = extra ++ (before ++ g t.entry :: (t.entriesBelow ++ after)) := by simp

/-- Adding a child to the directory with a path changes its entry and brings the entries of the child. -/
theorem withChild_entries {root t : Directory} {path : String} {position : Position}
    (hnodup : (root.entries.map (·.path)).Nodup) (ht : root.at? position = some t)
    (htpath : t.path = some path) (child : FileResults ⊕ Directory) :
    (root.modifyAt (withChild child) position).path = root.path ∧
      (root.modifyAt (withChild child) position).entries.Perm
        (entriesOf child ++ root.entries.map (Entry.updateAt path (Entry.add child))) := by
  -- a file is added to the entry; a directory adds its path there and brings entries of its own
  have hentry : (t.withChild child).entry = Entry.add child t.entry := by
    cases child <;> simp [withChild, entry, Entry.add, files, subdirectories]
  have hbelow : (t.withChild child).entriesBelow = t.entriesBelow ++ entriesOf child := by
    cases child <;> simp [withChild, entriesBelow, entriesOf, subdirectories]
  exact modifyAt_entries hnodup ht htpath rfl hentry hbelow

/-! ## Keeping a tree well-placed -/

/-- Every directory takes children. -/
def IsOpen (root : Directory) : Prop :=
  ∀ e ∈ root.entries, e.isSealed = false

/-- A directory of an open tree takes children. -/
private theorem IsOpen.isSealed_eq_false {root t : Directory} {position : Position} (h : root.IsOpen)
    (ht : root.at? position = some t) : t.isSealed = false :=
  h t.entry (List.mem_map_of_mem (mem_directories_of_at? ht))

/-- What holds of all entries still does, if the changed entry keeps it and the new ones have it. -/
private theorem forall_mem_of_updateAt {P : Entry → Prop} {table table' extra : List Entry} {path : String}
    {g : Entry → Entry} (hperm : table'.Perm (extra ++ table.map (Entry.updateAt path g)))
    (h : ∀ e ∈ table, P e) (hchanged : ∀ e, e.path = some path → P e → P (g e)) (hextra : ∀ e ∈ extra, P e) :
    ∀ e ∈ table', P e := by
  intro e he
  rw [hperm.mem_iff, List.mem_append, List.mem_map] at he
  -- an entry of the new table is new, or changed, or an old one as it was
  rcases he with he | ⟨old, hold, rfl⟩
  · exact hextra e he
  · rw [Entry.updateAt]
    split
    · next hat => exact hchanged old hat (h old hold)
    · exact h old hold

/-- What a change of one entry and new entries with paths of their own need to keep a tree well-placed. -/
theorem WellPlaced.of_updateAt {root root' : Directory} {path : String} {g : Entry → Entry}
    {extra : List Entry} (h : root.WellPlaced) (hroot : root'.path = root.path)
    (hperm : root'.entries.Perm (extra ++ root.entries.map (Entry.updateAt path g)))
    (hpath : ∀ e, (g e).path = e.path) (hplaced : ∀ e, e.path = some path → e.IsPlaced → (g e).IsPlaced)
    (hextra : ∀ e ∈ extra, e.IsPlaced)
    (hfresh : (extra.map (·.path) ++ root.entries.map (·.path)).Nodup) : root'.WellPlaced where
  root_path := hroot.trans h.root_path
  nodup_paths := by
    rw [(hperm.map _).nodup_iff, List.map_append, map_path_updateAt hpath]
    exact hfresh
  placed := forall_mem_of_updateAt hperm h.placed hplaced hextra

/-- An open tree stays open if the changed entry and the new ones are open. -/
theorem IsOpen.of_updateAt {root root' : Directory} {path : String} {g : Entry → Entry}
    {extra : List Entry} (h : root.IsOpen)
    (hperm : root'.entries.Perm (extra ++ root.entries.map (Entry.updateAt path g)))
    (hsame : ∀ e, (g e).isSealed = e.isSealed) (hextra : ∀ e ∈ extra, e.isSealed = false) :
    root'.IsOpen := by
  refine forall_mem_of_updateAt hperm h (fun e _ he => ?_) hextra
  rw [hsame e]
  exact he

/-- A new directory holds nothing. -/
theorem entries_new (path : String) : (new path).entries = [⟨some path, 0, false, [], []⟩] := by
  simp [entries, directories, directoriesIn, entry, new, files, subdirectories]

/-- One more file. -/
def Entry.countOne (e : Entry) : Entry :=
  { e with fileCount := e.fileCount + 1 }

/-- Two changes at one path are one change, if the first keeps the path. -/
private theorem map_updateAt_updateAt {first second : Entry → Entry} (hfirst : ∀ e, (first e).path = e.path)
    (path : String) (table : List Entry) :
    (table.map (Entry.updateAt path first)).map (Entry.updateAt path second) =
      table.map (Entry.updateAt path (second ∘ first)) := by
  rw [List.map_map]
  refine List.map_congr_left fun e _ => ?_
  by_cases hat : e.path = some path
  · simp [Entry.updateAt, hat, hfirst]
  · simp [Entry.updateAt, hat]

/-- A file that is added to one entry is added to the files of the table. -/
private theorem flatMap_files_updateAt {table : List Entry} {path : String} {g : Entry → Entry}
    {file : FileResults} (hnodup : (table.map (·.path)).Nodup) (hmem : some path ∈ table.map (·.path))
    (hg : ∀ e, (g e).files = e.files ++ [file]) :
    ((table.map (Entry.updateAt path g)).flatMap (·.files)).Perm
      (file :: table.flatMap (·.files)) := by
  obtain ⟨e, he, hpath⟩ := List.mem_map.1 hmem
  -- the path is taken once, so one entry is changed and the file appears once
  obtain ⟨before, after, rfl⟩ := List.append_of_mem he
  rw [map_updateAt_of_nodup hnodup hpath]
  simp only [List.flatMap_append, List.flatMap_cons, hg, List.append_assoc, List.singleton_append]
  rw [← List.append_assoc, ← List.append_assoc]
  exact List.perm_middle

end Directory

namespace Builder

open Directory

/-! ## Programs -/

/-- A directory that takes children gets the child as its last one. -/
private theorem run_attach {b : Builder} {position : Position} {t : Directory} (ht : b.root.at? position = some t)
    (hopen : t.isSealed = false) (child : FileResults ⊕ Directory) :
    (attach position child).run b = .ok (position ++ [t.children.length])
      { b with root := b.root.modifyAt (withChild child) position } := by
  have hadd : t.addChild child = .ok (t.withChild child) := by
    rw [addChild, if_neg (by simp [hopen])]
    rfl
  -- the program puts back a directory that it computed; as a change it is the same
  have hsame : b.root.modifyAt (fun _ => t.withChild child) position =
      b.root.modifyAt (withChild child) position := modifyAt_congr ht rfl
  rw [attach, EStateM.run_bind, EStateM.run_get]
  simp only [ht, hadd, hsame]
  rfl

/-- A sealed directory refuses a child, and nothing has changed. -/
theorem run_attach_of_isSealed {b : Builder} {position : Position} {t : Directory}
    (ht : b.root.at? position = some t) (hsealed : t.isSealed = true) (child : FileResults ⊕ Directory) :
    (attach position child).run b = .error (.sealedDirectory t.path) b := by
  have hadd : t.addChild child = .error (.sealedDirectory t.path) := by
    rw [addChild, hsealed]
    rfl
  rw [attach, EStateM.run_bind, EStateM.run_get]
  simp only [ht, hadd]
  rfl

/-- A path that the table knows has its directory already. -/
theorem run_directory_of_position? {b : Builder} {path : String} {position : Position}
    (h : b.position? path = some position) : (directory path).run b = .ok position b := by
  rw [directory, EStateM.run_bind, EStateM.run_get]
  simp only [h]
  rfl

/-- Any other path gets a directory in that of its parent, and is then entered into the table. -/
theorem run_directory_of_new {b : Builder} {path : String} (h : b.position? path = none) (hne : path ≠ "") :
    (directory path).run b = (do
      let parent ← directory (parentPath path)
      let position ← attach parent (.inr (.new path))
      register path position
      return position : Program Position).run b := by
  rw [directory, EStateM.run_bind, EStateM.run_get]
  simp only [h, dif_neg hne]

/-! ## Builders that can be relied on -/

/-- Nothing is finalized, the tree is well-placed and takes children everywhere, and the table knows every
    path of the tree and leads to the directory that has it. -/
structure IsOpen (b : Builder) : Prop where
  wellPlaced : b.root.WellPlaced
  isOpen : b.root.IsOpen
  notFinalized : b.isFinalized = false
  leads : ∀ path position, b.position? path = some position →
    ∃ t, b.root.at? position = some t ∧ t.path = some path
  knows : ∀ path, some path ∈ b.root.entries.map (·.path) → ∃ position, b.position? path = some position

/-- The table knows exactly the paths of the tree. -/
private theorem IsOpen.position?_eq_none_iff {b : Builder} (h : b.IsOpen) {path : String} :
    b.position? path = none ↔ some path ∉ b.root.entries.map (·.path) := by
  constructor
  · intro hnone hmem
    obtain ⟨position, hposition⟩ := h.knows path hmem
    rw [hnone] at hposition
    cases hposition
  · intro hnew
    cases hposition : b.position? path with
    | none => rfl
    | some position =>
      -- the table leads to a directory of the tree, which would have the path
      obtain ⟨t, ht, htpath⟩ := h.leads path position hposition
      exact absurd (mem_paths (mem_directories_of_at? ht) htpath) hnew

/-! ## Making directories -/

/-- The builder after a directory was made for the path: it is the last child of the directory `t` at the
    position, and it is in the table. -/
def grow (b : Builder) (path : String) (position : Position) (t : Directory) : Builder :=
  { b with
    root := b.root.modifyAt (withChild (.inr (.new path))) position
    table := b.table ++ [(path, position ++ [t.children.length])] }

/-- A directory for the path is missing, and `t` at the position is the directory of its parent. -/
structure Takes (b : Builder) (path : String) (position : Position) (t : Directory) : Prop where
  isOpen : b.IsOpen
  ne_empty : path ≠ ""
  fresh : some path ∉ b.root.entries.map (·.path)
  at_eq : b.root.at? position = some t
  path_eq : t.path = some (parentPath path)

namespace Takes

variable {b : Builder} {path : String} {position : Position} {t : Directory}

/-- What the new directory does to the entries of the tree. -/
theorem entries_grow (h : b.Takes path position t) :
    (b.grow path position t).root.path = b.root.path ∧
      (b.grow path position t).root.entries.Perm ([⟨some path, 0, false, [], []⟩] ++
        b.root.entries.map (Entry.updateAt (parentPath path) (Entry.add (.inr (.new path))))) := by
  rw [← entries_new]
  exact withChild_entries h.isOpen.wellPlaced.nodup_paths h.at_eq h.path_eq (.inr (.new path))

/-- The tree has one more path. -/
theorem mem_paths_grow (h : b.Takes path position t) (q : String) :
    some q ∈ (b.grow path position t).root.entries.map (·.path) ↔
      q = path ∨ some q ∈ b.root.entries.map (·.path) := by
  rw [(h.entries_grow.2.map _).mem_iff, List.map_append, map_path_updateAt (Entry.add_path _)]
  simp

/-- The tree has the files that it had. -/
theorem allFiles_grow (h : b.Takes path position t) :
    (b.grow path position t).root.allFiles.Perm b.root.allFiles := by
  -- a folder that is added to an entry leaves its files alone
  have hkeep : (b.root.entries.map
      (Entry.updateAt (parentPath path) (Entry.add (.inr (.new path))))).flatMap (·.files) =
        b.root.entries.flatMap (·.files) := by
    rw [List.flatMap_map]
    refine List.flatMap_congr fun e _ => ?_
    rw [Entry.updateAt]
    split <;> rfl
  rw [allFiles_eq_flatMap_entries, allFiles_eq_flatMap_entries]
  refine (h.entries_grow.2.flatMap_right _).trans ?_
  rw [List.flatMap_append, hkeep]
  exact List.Perm.refl _

/-- The tree stays well-placed: the new directory lies in the one that it was added to. -/
private theorem wellPlaced_grow (h : b.Takes path position t) : (b.grow path position t).root.WellPlaced := by
  obtain ⟨hroot, hperm⟩ := h.entries_grow
  refine h.isOpen.wellPlaced.of_updateAt hroot hperm (Entry.add_path _) ?_ ?_ ?_
  · -- the entry of the parent has one more folder, and the folder lies in it
    rintro e hat ⟨q, hq, hcount, hfiles, hfolders⟩
    refine ⟨q, hq, hcount, hfiles, fun folder hfolder => ?_⟩
    rcases List.mem_append.1 hfolder with hfolder | hfolder
    · exact hfolders folder hfolder
    · rw [hat] at hq
      exact ⟨path, List.mem_singleton.1 hfolder, h.ne_empty, Option.some.inj hq⟩
  · -- the new entry is empty
    intro e he
    rw [List.mem_singleton.1 he]
    exact ⟨path, rfl, rfl, by simp, by simp⟩
  · -- the path was not taken before
    exact List.nodup_cons.2 ⟨h.fresh, h.isOpen.wellPlaced.nodup_paths⟩

/-- What the table knew it still knows, and the new path besides. -/
private theorem position?_grow (h : b.Takes path position t) (q : String) :
    (b.grow path position t).position? q =
      if q = path then some (position ++ [t.children.length]) else b.position? q := by
  -- the new line stands last in the table, so the older ones are found first
  have hlookup : (b.grow path position t).position? q =
      (b.position? q).or (if q = path then some (position ++ [t.children.length]) else none) := by
    rw [position?, grow, List.lookup_append]
    congr 1
    by_cases hq : q = path
    · simp [hq]
    · simp [List.lookup_cons, beq_eq_false_iff_ne.2 hq, hq]
  rw [hlookup]
  split
  · next hq => rw [hq, h.isOpen.position?_eq_none_iff.2 h.fresh, Option.none_or]
  · rw [Option.or_none]

/-- A directory that is made keeps the builder in order. -/
theorem isOpen_grow (h : b.Takes path position t) : (b.grow path position t).IsOpen where
  wellPlaced := h.wellPlaced_grow
  isOpen := by
    refine h.isOpen.isOpen.of_updateAt h.entries_grow.2 (fun e => rfl) fun e he => ?_
    rw [List.mem_singleton.1 he]
  notFinalized := h.isOpen.notFinalized
  leads := by
    intro q other hother
    rw [h.position?_grow] at hother
    split at hother
    · next hq =>
      obtain rfl := Option.some.inj hother
      exact ⟨.new path, at?_withChild h.at_eq _, by rw [hq]; rfl⟩
    · -- an older position still leads to its directory: children are only added behind the others
      obtain ⟨d, hd, hdpath⟩ := h.isOpen.leads q other hother
      obtain ⟨d', hd', hsame⟩ := (keeps_withChild (.inr (.new path))).exists_at?_modifyAt hd
      exact ⟨d', hd', hsame.trans hdpath⟩
  knows := by
    intro q hq
    rw [h.position?_grow]
    split
    · exact ⟨_, rfl⟩
    · next hne => exact h.isOpen.knows q (((h.mem_paths_grow q).1 hq).resolve_left hne)

/-- Attaching and registering the directory is what makes it. -/
private theorem run_grow (h : b.Takes path position t) :
    (do
      let child ← attach position (.inr (.new path))
      register path child
      return child : Program Position).run b =
        .ok (position ++ [t.children.length]) (b.grow path position t) := by
  rw [EStateM.run_bind, run_attach h.at_eq (h.isOpen.isOpen.isSealed_eq_false h.at_eq)]
  rfl

end Takes

/-- The second builder comes from the first by making directories that the path asks for, one at a time. -/
inductive Makes (path : String) (b : Builder) : Builder → Prop where
  | nothing : Makes path b b
  | one {b' : Builder} {q : String} {position : Position} {t : Directory} (before : Makes path b b')
    (takes : b'.Takes q position t) (asked : q = path ∨ q ∈ ancestors path) :
    Makes path b (b'.grow q position t)

namespace Makes

variable {b b' : Builder} {path : String}

/-- What the parent asks for, the path asks for. -/
private theorem of_parent (h : Makes (parentPath path) b b') : Makes path b b' := by
  induction h with
  | nothing => exact .nothing
  | one _ takes asked ih => exact .one ih takes (.inr (mem_ancestors.2 asked))

/-- Directories that are made keep the builder in order. -/
theorem isOpen (h : Makes path b b') (hb : b.IsOpen) : b'.IsOpen := by
  cases h with
  | nothing => exact hb
  | one _ takes _ => exact takes.isOpen_grow

/-- Directories that are made change no file. -/
theorem allFiles (h : Makes path b b') : b'.root.allFiles.Perm b.root.allFiles := by
  induction h with
  | nothing => exact List.Perm.refl _
  | one _ takes _ ih => exact takes.allFiles_grow.trans ih

/-- No path is lost, and every path that is new was asked for. -/
theorem mem_paths (h : Makes path b b') (q : String) :
    (some q ∈ b.root.entries.map (·.path) → some q ∈ b'.root.entries.map (·.path)) ∧
      (some q ∈ b'.root.entries.map (·.path) →
        some q ∈ b.root.entries.map (·.path) ∨ q = path ∨ q ∈ ancestors path) := by
  induction h with
  | nothing => exact ⟨id, .inl⟩
  | one _ takes asked ih =>
    rw [takes.mem_paths_grow]
    refine ⟨fun hq => .inr (ih.1 hq), ?_⟩
    -- the path that is new last was asked for; the others by induction
    rintro (rfl | hq)
    · exact .inr asked
    · exact ih.2 hq

end Makes

/-- A path is longer than its parent and so not among the directories made for the parent. -/
private theorem Makes.not_mem_paths_of_parent {b b' : Builder} {path : String} (h : Makes (parentPath path) b b')
    (hne : path ≠ "") (hnew : some path ∉ b.root.entries.map (·.path)) :
    some path ∉ b'.root.entries.map (·.path) := by
  have hlt := length_parentPath_lt hne
  intro hmem
  rcases (h.mem_paths path).2 hmem with hq | hq | hq
  · exact hnew hq
  · rw [← hq] at hlt
    omega
  · have hle := length_le_of_mem_ancestors hq
    omega

/-- Asking for the directory of a path makes the directories that are missing, and answers with the position
    of the directory. -/
theorem directory_spec {b : Builder} (h : b.IsOpen) (path : String) :
    ∃ b' position t, (directory path).run b = .ok position b' ∧ Makes path b b' ∧
      b'.position? path = some position ∧ b'.root.at? position = some t ∧ t.path = some path := by
  -- induction on the length of the path: the directory of the parent is made first
  induction hn : path.length using Nat.strongRecOn generalizing path with
  | ind n ih =>
    cases hposition : b.position? path with
    | some position =>
      obtain ⟨t, ht, htpath⟩ := h.leads path position hposition
      exact ⟨b, position, t, run_directory_of_position? hposition, .nothing, hposition, ht, htpath⟩
    | none =>
      have hnew := h.position?_eq_none_iff.1 hposition
      -- the empty path is that of the root, which the table knows
      have hne : path ≠ "" := by
        rintro rfl
        exact hnew h.wellPlaced.root_path_mem
      obtain ⟨b₁, parent, t, hrun, hmakes, -, ht, htpath⟩ :=
        ih _ (hn ▸ length_parentPath_lt hne) (parentPath path) rfl
      have htakes : b₁.Takes path parent t :=
        ⟨hmakes.isOpen h, hne, hmakes.not_mem_paths_of_parent hne hnew, ht, htpath⟩
      refine ⟨b₁.grow path parent t, parent ++ [t.children.length], .new path, ?_, ?_, ?_, ?_, rfl⟩
      · rw [run_directory_of_new hposition hne, EStateM.run_bind, hrun]
        exact htakes.run_grow
      · exact .one hmakes.of_parent htakes (.inl rfl)
      · rw [htakes.position?_grow, if_pos rfl]
      · exact at?_withChild ht _

/-- A path asks for its own directory and for those of its ancestors, and for nothing else. -/
theorem Makes.mem_paths_iff {b b' : Builder} {path : String} {position : Position} {t : Directory}
    (h : Makes path b b') (hb : b.IsOpen) (ht : b'.root.at? position = some t) (htpath : t.path = some path)
    (q : String) :
    some q ∈ b'.root.entries.map (·.path) ↔
      some q ∈ b.root.entries.map (·.path) ∨ q = path ∨ q ∈ ancestors path := by
  have hpath := Directory.mem_paths (mem_directories_of_at? ht) htpath
  refine ⟨(h.mem_paths q).2, ?_⟩
  rintro (hq | rfl | hq)
  · exact (h.mem_paths q).1 hq
  · exact hpath
  · exact (h.isOpen hb).wellPlaced.ancestor_mem_paths hpath hq

/-! ## Attaching files -/

/-- The builder after a file was attached to the directory at the position and counted there. -/
def withFile (b : Builder) (file : FileResults) (position : Position) : Builder :=
  { b with root := (b.root.modifyAt (withChild (.inl file)) position).modifyAt Directory.countOne position }

section WithFile

variable {b : Builder} {file : FileResults} {position : Position} {t : Directory}

/-- The file changes the entry of its directory and no other. -/
theorem entries_withFile (h : b.IsOpen) (ht : b.root.at? position = some t)
    (htpath : t.path = some (parentPath file.path)) :
    (b.withFile file position).root.path = b.root.path ∧
      (b.withFile file position).root.entries.Perm (b.root.entries.map
        (Entry.updateAt (parentPath file.path) (Entry.countOne ∘ Entry.add (.inl file)))) := by
  obtain ⟨hroot₁, hperm₁⟩ := withChild_entries h.wellPlaced.nodup_paths ht htpath (.inl file)
  rw [entriesOf, List.nil_append] at hperm₁
  -- until the file is counted, the tree is not well-placed, but its paths are as before
  have hnodup : ((b.root.modifyAt (withChild (.inl file)) position).entries.map (·.path)).Nodup := by
    rw [(hperm₁.map _).nodup_iff, map_path_updateAt (Entry.add_path _)]
    exact h.wellPlaced.nodup_paths
  have hbelow : (t.withChild (.inl file)).countOne.entriesBelow =
      (t.withChild (.inl file)).entriesBelow ++ [] := (List.append_nil _).symm
  obtain ⟨hroot₂, hperm₂⟩ := modifyAt_entries (g := Entry.countOne) hnodup (at?_modifyAt_self ht) htpath
    rfl rfl hbelow
  refine ⟨hroot₂.trans hroot₁, ?_⟩
  rw [← map_updateAt_updateAt (Entry.add_path _)]
  exact hperm₂.trans (hperm₁.map _)

/-- A file brings no path. -/
theorem mem_paths_withFile (h : b.IsOpen) (ht : b.root.at? position = some t)
    (htpath : t.path = some (parentPath file.path)) (q : String) :
    some q ∈ (b.withFile file position).root.entries.map (·.path) ↔
      some q ∈ b.root.entries.map (·.path) := by
  rw [((entries_withFile h ht htpath).2.map _).mem_iff,
    map_path_updateAt (g := Entry.countOne ∘ Entry.add (.inl file)) fun e => rfl]

/-- The tree has one more file. -/
theorem allFiles_withFile (h : b.IsOpen) (ht : b.root.at? position = some t)
    (htpath : t.path = some (parentPath file.path)) :
    (b.withFile file position).root.allFiles.Perm (file :: b.root.allFiles) := by
  have hmem := mem_paths (mem_directories_of_at? ht) htpath
  rw [allFiles_eq_flatMap_entries, allFiles_eq_flatMap_entries]
  refine ((entries_withFile h ht htpath).2.flatMap_right _).trans ?_
  exact flatMap_files_updateAt h.wellPlaced.nodup_paths hmem fun e => rfl

/-- A file that is attached to the directory of its parent path and counted there keeps the builder in
    order. -/
theorem isOpen_withFile (h : b.IsOpen) (ht : b.root.at? position = some t)
    (htpath : t.path = some (parentPath file.path)) : (b.withFile file position).IsOpen := by
  obtain ⟨hroot, hentries⟩ := entries_withFile h ht htpath
  have hperm : (b.withFile file position).root.entries.Perm ([] ++ b.root.entries.map
      (Entry.updateAt (parentPath file.path) (Entry.countOne ∘ Entry.add (.inl file)))) := hentries
  have hplaced : (b.withFile file position).root.WellPlaced := by
    refine h.wellPlaced.of_updateAt hroot hperm (fun e => rfl) ?_ (by simp) h.wellPlaced.nodup_paths
    rintro e hat ⟨q, hq, hcount, hfiles, hfolders⟩
    refine ⟨q, hq, ?_, fun f hf => ?_, hfolders⟩
    · -- the entry was right about its files, and is again after both changes
      show e.fileCount + 1 = ((e.files ++ [file]).length : Int)
      rw [hcount, List.length_append]
      rfl
    · rcases List.mem_append.1 hf with hf | hf
      · exact hfiles f hf
      · rw [List.mem_singleton.1 hf]
        rw [hat] at hq
        exact Option.some.inj hq
  refine ⟨hplaced, h.isOpen.of_updateAt hperm (fun e => rfl) (by simp), h.notFinalized, ?_, ?_⟩
  · -- two changes, and neither moves a directory
    intro path other hother
    obtain ⟨d, hd, hdpath⟩ := h.leads path other hother
    obtain ⟨d₁, hd₁, hsame₁⟩ := (keeps_withChild (.inl file)).exists_at?_modifyAt hd
    obtain ⟨d₂, hd₂, hsame₂⟩ := keeps_countOne.exists_at?_modifyAt hd₁
    exact ⟨d₂, hd₂, hsame₂.trans (hsame₁.trans hdpath)⟩
  · intro path hpath
    exact h.knows path ((mem_paths_withFile h ht htpath path).1 hpath)

end WithFile

/-- A file finds its directory, or has it made, and is attached and counted there. -/
theorem attachFile_spec {b : Builder} (h : b.IsOpen) (file : FileResults) :
    ∃ b' position t, Makes (parentPath file.path) b b' ∧ b'.root.at? position = some t ∧
      t.path = some (parentPath file.path) ∧
      (attachFile file).run b = .ok () (b'.withFile file position) := by
  obtain ⟨b', position, t, hrun, hmakes, -, ht, htpath⟩ := directory_spec h (parentPath file.path)
  have hopen := (hmakes.isOpen h).isOpen.isSealed_eq_false ht
  refine ⟨b', position, t, hmakes, ht, htpath, ?_⟩
  rw [attachFile, EStateM.run_bind, EStateM.run_get]
  simp only [h.notFinalized, Bool.false_eq_true, if_false]
  -- the steps of the program: find or make the directory, attach, count
  rw [EStateM.run_bind, hrun]
  simp only
  rw [EStateM.run_bind, run_attach ht hopen]
  rfl

end Builder

end JavaLint
