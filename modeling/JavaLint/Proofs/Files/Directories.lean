import Mathlib.Data.List.Infix
import JavaLint.FileTree

/-!
# Directories without links

A directory tree is well formed if its names are names and no two entries of a directory share one. The names of
a real directory then lead to it and to nothing else: following them meets no link and takes nothing back. A path
whose links can all be resolved comes down to such names.

- `FileEntry.areWellFormed`: what a directory may hold
- `FileEntry.directoryInduction`: induction over the directories of a tree
- `FileTree.IsDirect`: names on which there is no link
- `FileTree.Resolves.exists_isDirect`, `FileTree.resolve_of_isDirect`: what is resolved is direct, and stays as it is
- `FileTree.exists_below?_of_lookupFrom`, `FileTree.eq_of_lookupFrom`: a directory that is found is a real one, and
  direct names lead to the one that has them
-/

namespace JavaLint

namespace FileEntry

/-! ## Entries -/

/-- What an entry can be called: anything that is one name of a path and stands for itself there. -/
def isName (name : String) : Bool :=
  name != "" && name != "." && name != ".." && !Path.isNullName name && !name.toList.contains '/'

/-- The five conditions one by one. -/
theorem isName_iff {name : String} :
    isName name = true ↔
      name ≠ "" ∧ name ≠ "." ∧ name ≠ ".." ∧ Path.isNullName name = false ∧ '/' ∉ name.toList := by
  simp [isName, and_assoc]

mutual

/-- The entry has a name, and what is below it is well formed. -/
def isWellFormed : FileEntry → Bool
  | .directory name entries => isName name && areWellFormed entries
  | .file name _ | .link name _ | .device name _ => isName name

/-- No two entries have the same name, here and in every directory below. -/
def areWellFormed : List FileEntry → Bool
  | [] => true
  | e :: rest => !(rest.map name).contains e.name && e.isWellFormed && areWellFormed rest

end

/-- The names differ, and each entry is well formed. -/
theorem areWellFormed_iff {entries : List FileEntry} :
    areWellFormed entries = true ↔ (entries.map name).Nodup ∧ ∀ e ∈ entries, e.isWellFormed = true := by
  induction entries with
  | nil => simp [areWellFormed]
  | cons e rest ih =>
    simp only [areWellFormed, Bool.and_eq_true, Bool.not_eq_true', List.map_cons, List.nodup_cons, ih,
      List.forall_mem_cons, List.contains_eq_mem, decide_eq_false_iff_not]
    tauto

/-- The entry is neither a directory nor a link. -/
def isFile : FileEntry → Bool
  | .file .. | .device .. => true
  | .directory .. | .link .. => false

/-- A well-formed entry has a name. -/
theorem isName_of_isWellFormed {e : FileEntry} (h : e.isWellFormed = true) : isName e.name = true := by
  cases e with
  | directory name entries =>
    rw [isWellFormed, Bool.and_eq_true] at h
    exact h.1
  | file name content => exact h
  | link name target => exact h
  | device name content => exact h

/-- A directory in a well-formed one has a name and is well formed. -/
theorem areWellFormed_of_mem {entries inner : List FileEntry} {name : String} (h : areWellFormed entries = true)
    (hmem : .directory name inner ∈ entries) : isName name = true ∧ areWellFormed inner = true := by
  have hdirectory := (areWellFormed_iff.1 h).2 _ hmem
  rwa [isWellFormed, Bool.and_eq_true] at hdirectory

mutual

/-- What holds of the entries of a directory once it holds of those of the directories in it holds of the entries
    of every directory. -/
theorem directoryInduction {motive : List FileEntry → Prop}
    (step : ∀ entries, (∀ name inner, .directory name inner ∈ entries → motive inner) → motive entries)
    (entries : List FileEntry) : motive entries :=
  step entries fun name inner hmem => directoryInductionIn step entries (.directory name inner) hmem name inner rfl

/-- The same for the directories in a list of entries. -/
theorem directoryInductionIn {motive : List FileEntry → Prop}
    (step : ∀ entries, (∀ name inner, .directory name inner ∈ entries → motive inner) → motive entries) :
    ∀ entries : List FileEntry, ∀ e ∈ entries, ∀ name inner, e = .directory name inner → motive inner
  | [] => fun e he => nomatch he
  | e :: rest => List.forall_mem_cons.2 ⟨directoryInductionAt step e, directoryInductionIn step rest⟩

/-- The same for one entry, if it is a directory. -/
theorem directoryInductionAt {motive : List FileEntry → Prop}
    (step : ∀ entries, (∀ name inner, .directory name inner ∈ entries → motive inner) → motive entries) :
    ∀ e : FileEntry, ∀ name inner, e = .directory name inner → motive inner
  | .directory _ entries => fun _ _ heq => (FileEntry.directory.inj heq).2 ▸ directoryInduction step entries
  | .file .. => nofun
  | .link .. => nofun
  | .device .. => nofun

end

/-! ## Real directories -/

/-- What is looked up is an entry with the name. -/
theorem mem_of_named? {entries : List FileEntry} {name : String} {e : FileEntry} (h : named? entries name = some e) :
    e ∈ entries ∧ e.name = name :=
  ⟨List.mem_of_find?_eq_some h, by simpa using List.find?_some h⟩

/-- Names that differ tell entries apart. -/
theorem named?_of_mem {entries : List FileEntry} (h : (entries.map name).Nodup) {e : FileEntry} (he : e ∈ entries) :
    named? entries e.name = some e := by
  unfold named?
  induction entries with
  | nil => exact nomatch he
  | cons first rest ih =>
    rw [List.map_cons, List.nodup_cons] at h
    rw [List.find?_cons]
    rcases List.mem_cons.1 he with rfl | hrest
    · simp
    · -- the first entry has another name, as it would come twice otherwise
      have hne : first.name ≠ e.name := fun heq => h.1 (heq ▸ List.mem_map_of_mem hrest)
      simp only [beq_eq_false_iff_ne.2 hne]
      exact ih h.2 hrest

/-- The first name leads to a directory, and the others on from there. -/
theorem below?_cons {entries inner : List FileEntry} {name : String} {rest : List String} :
    below? entries (name :: rest) = some inner ↔
      ∃ within, named? entries name = some (.directory name within) ∧ below? within rest = some inner := by
  rw [below?]
  constructor
  · intro h
    split at h
    · next name' within hnamed =>
      -- the entry that was found has the name that was asked for
      obtain rfl : name' = name := (mem_of_named? hnamed).2
      exact ⟨within, hnamed, h⟩
    · cases h
  · rintro ⟨within, hnamed, h⟩
    rw [hnamed]
    exact h

/-- The first names lead to a directory, and the others on from there. -/
theorem below?_append {entries inner : List FileEntry} {above below : List String} :
    below? entries (above ++ below) = some inner ↔
      ∃ within, below? entries above = some within ∧ below? within below = some inner := by
  induction above generalizing entries with
  | nil => simp [below?]
  | cons name above ih =>
    simp only [List.cons_append, below?_cons, ih]
    -- both sides ask for the same two directories on the way
    grind

/-- A directory below a well-formed one is well formed, and so are the names on the way. -/
theorem areWellFormed_of_below? {entries inner : List FileEntry} {names : List String}
    (h : areWellFormed entries = true) (hbelow : below? entries names = some inner) :
    areWellFormed inner = true ∧ ∀ name ∈ names, isName name = true := by
  induction names generalizing entries with
  | nil =>
    obtain rfl := Option.some.inj hbelow
    exact ⟨h, List.forall_mem_nil _⟩
  | cons name rest ih =>
    obtain ⟨within, hnamed, hrest⟩ := below?_cons.1 hbelow
    -- the first name is one of an entry, and what is in that entry is well-formed too
    obtain ⟨hname, hwithin⟩ := areWellFormed_of_mem h (mem_of_named? hnamed).1
    obtain ⟨hinner, hnames⟩ := ih hwithin hrest
    exact ⟨hinner, List.forall_mem_cons.2 ⟨hname, hnames⟩⟩

end FileEntry

namespace FileTree

variable {tree : FileTree}

/-! ## Direct names -/

/-- The name stands for itself in the directory: it does not go back, it could be a name, and it is no link. -/
structure IsStep (tree : FileTree) (directory : List String) (name : String) : Prop where
  notDots : name ≠ ".."
  notNull : Path.isNullName name = false
  notLink : ∀ n target, FileEntry.named? (tree.entriesAt directory) name ≠ some (.link n target)

/-- Each of the names stands for itself in the directory that those before it lead to. -/
def IsDirect (tree : FileTree) (names : List String) : Prop :=
  ∀ above name, above ++ [name] <+: names → tree.IsStep above name

/-- The names of the top are direct. -/
theorem isDirect_nil : tree.IsDirect [] := by
  intro above name h
  exact absurd (List.prefix_nil.1 h) (by simp)

/-- The names of a directory above are direct too. -/
private theorem IsDirect.of_isPrefix {names names' : List String} (h : tree.IsDirect names)
    (hinit : names' <+: names) : tree.IsDirect names' :=
  fun above name habove => h above name (habove.trans hinit)

/-- One more name is direct if it stands for itself where the others lead. -/
theorem isDirect_concat {names : List String} {name : String} :
    tree.IsDirect (names ++ [name]) ↔ tree.IsDirect names ∧ tree.IsStep names name := by
  constructor
  · intro h
    exact ⟨h.of_isPrefix (List.prefix_append _ _), h names name (List.prefix_refl _)⟩
  · rintro ⟨hnames, hname⟩ above name' hinit
    -- the names up to the last one, or fewer
    rcases List.prefix_concat_iff.1 hinit with heq | hshorter
    · obtain ⟨rfl, hlast⟩ := List.append_inj' heq rfl
      obtain rfl := List.singleton_inj.1 hlast
      exact hname
    · exact hnames above name' hshorter

/-- Every name of direct names is a step in some directory. -/
private theorem IsDirect.exists_isStep {names : List String} (h : tree.IsDirect names) {name : String}
    (hmem : name ∈ names) : ∃ above, tree.IsStep above name := by
  obtain ⟨above, below, rfl⟩ := List.append_of_mem hmem
  exact ⟨above, h above name (by simp)⟩

/-- Direct names take nothing back. -/
private theorem IsDirect.not_mem {names : List String} (h : tree.IsDirect names) : ".." ∉ names := by
  intro hmem
  obtain ⟨above, hstep⟩ := h.exists_isStep hmem
  exact hstep.notDots rfl

/-- Direct names hold no null byte. -/
private theorem IsDirect.hasNull_eq_false {names : List String} (h : tree.IsDirect names) :
    (Path.absolute names).hasNull = false := by
  rw [Path.hasNull, List.any_eq_false]
  intro name hmem
  obtain ⟨above, hstep⟩ := h.exists_isStep hmem
  exact ne_true_of_eq_false hstep.notNull

/-- The entries of a real directory are found under its names. -/
theorem entriesAt_of_below? {names : List String} {inner : List FileEntry}
    (h : FileEntry.below? tree.entries names = some inner) : tree.entriesAt names = inner := by
  rw [entriesAt, h]
  rfl

/-- The names of a real directory are direct. -/
theorem isDirect_of_below? (h : FileEntry.areWellFormed tree.entries = true) {names : List String}
    {inner : List FileEntry} (hbelow : FileEntry.below? tree.entries names = some inner) : tree.IsDirect names := by
  rintro above name ⟨below, rfl⟩
  have hname := (FileEntry.areWellFormed_of_below? h hbelow).2 name (by simp)
  obtain ⟨-, -, hdots, hnull, -⟩ := FileEntry.isName_iff.1 hname
  refine ⟨hdots, hnull, ?_⟩
  -- the directory of the name has a directory there, and so no link
  rw [List.append_assoc] at hbelow
  obtain ⟨within, habove, hrest⟩ := FileEntry.below?_append.1 hbelow
  obtain ⟨_, hnamed, -⟩ := FileEntry.below?_cons.1 hrest
  rw [entriesAt_of_below? habove, hnamed]
  simp

/-! ## Resolving -/

/-- No link on the way leads back to itself. -/
def Resolves (tree : FileTree) (p : Path) : Prop :=
  ∃ names, tree.resolution p = .ok (names, true)

/-- Direct names are kept. -/
theorem resolveFrom_of_isDirect {directory names : List String} (h : tree.IsDirect (directory ++ names)) (fuel : Nat)
    (active : List (List String)) :
    tree.resolveFrom fuel active directory names = .ok (directory ++ names, true) := by
  induction names generalizing directory with
  | nil => rw [resolveFrom, List.append_nil]
  | cons name rest ih =>
    -- the first name stands for itself
    have hstep := h directory name (by simp)
    rw [List.append_cons] at h ⊢
    rw [resolveFrom, if_neg (by simpa using hstep.notDots), if_neg (ne_true_of_eq_false hstep.notNull)]
    split
    · next n target hnamed => exact absurd hnamed (hstep.notLink n target)
    · exact ih h

/-- Whatever is resolved from a direct directory is direct. -/
private theorem isDirect_resolveFrom {fuel : Nat} {active : List (List String)} {directory names : List String}
    (hdirectory : tree.IsDirect directory) : ∀ found : List String,
    tree.resolveFrom fuel active directory names = .ok (found, true) → tree.IsDirect found := by
  fun_induction resolveFrom tree fuel active directory names with
  | case1 fuel active directory =>
    intro found h
    obtain rfl := congrArg Prod.fst (Except.ok.inj h)
    exact hdirectory
  -- back to the directory above
  | case2 fuel active directory name rest hdots ih =>
    exact ih (hdirectory.of_isPrefix (List.dropLast_prefix _))
  | case6 active directory name rest hdots hnull here n target hnamed links hactive path names hpath ihpath ih =>
    -- the target starts at the top or at the directory of the link
    have hstart : tree.IsDirect (if path.isAbsolute then [] else directory) := by
      split
      · exact isDirect_nil
      · exact hdirectory
    exact ih (ihpath hstart names hpath)
  -- a name that is no link is kept
  | case9 fuel active directory name rest hdots hnull here hlink ih =>
    exact ih (isDirect_concat.2 ⟨hdirectory, by simpa using hdots, by simpa using hnull, hlink⟩)
  | _ => nofun

/-- Names are resolved one after another. -/
private theorem resolveFrom_append {fuel : Nat} {active : List (List String)} {directory names : List String}
    (more : List String) : ∀ found : List String,
    tree.resolveFrom fuel active directory names = .ok (found, true) →
      tree.resolveFrom fuel active directory (names ++ more) = tree.resolveFrom fuel active found more := by
  fun_induction resolveFrom tree fuel active directory names with
  | case1 fuel active directory =>
    intro found h
    obtain rfl := congrArg Prod.fst (Except.ok.inj h)
    rfl
  | case2 fuel active directory name rest hdots ih =>
    rw [List.cons_append, resolveFrom, if_pos hdots]
    exact ih
  | case6 active directory name rest hdots hnull here n target hnamed links hactive path names hpath ihpath ih =>
    -- the target is resolved as before, with nothing behind it
    have htarget : tree.resolveFrom links (here :: active) (if path.isAbsolute then [] else directory) path.names =
        .ok (names, true) := by
      simpa only [dite_eq_ite] using hpath
    rw [List.cons_append, resolveFrom, if_neg hdots, if_neg hnull]
    simp only [hnamed]
    rw [if_neg hactive]
    simp only [here, path] at htarget
    rw [htarget]
    exact ih
  | case9 fuel active directory name rest hdots hnull here hlink ih =>
    rw [List.cons_append, resolveFrom, if_neg hdots, if_neg hnull]
    split
    · next n target hnamed => exact absurd hnamed (hlink n target)
    · exact ih
  | _ => nofun

/-- Where nothing is taken back, all names are kept. -/
private theorem withoutDots_of_not_mem {names : List String} (h : ".." ∉ names) : withoutDots names = names := by
  -- for any names that are kept already
  have hfold : ∀ done : List String, names.foldl
      (fun done name => if name == ".." then done.dropLast else done ++ [name]) done = done ++ names := by
    induction names with
    | nil => simp
    | cons name rest ih =>
      intro done
      obtain ⟨hname, hrest⟩ := not_or.1 (List.mem_cons.not.1 h)
      rw [List.foldl_cons, if_neg (by simpa using Ne.symm hname), ih hrest, List.append_assoc,
        List.singleton_append]
  exact hfold []

/-- Direct names use up no links, so there are never too many of them. -/
private theorem lookupFrom_ne_tooManyLinks {directory names : List String} (h : tree.IsDirect (directory ++ names))
    (links : Nat) : tree.lookupFrom links directory names ≠ .error .tooManyLinks := by
  induction names generalizing directory with
  | nil =>
    rw [lookupFrom]
    simp
  | cons name rest ih =>
    have hstep := h directory name (by simp)
    rw [List.append_cons] at h
    rw [lookupFrom, if_neg (by simpa using hstep.notDots)]
    -- whatever is found there, it is not a link
    split
    · simp [AccessFault.notFound, AccessFault.tooManyLinks]
    · exact ih h
    · split <;> simp [AccessFault.notDirectory, AccessFault.tooManyLinks]
    · split <;> simp [AccessFault.notDirectory, AccessFault.tooManyLinks]
    · next n target hnamed => exact absurd hnamed (hstep.notLink n target)

/-- If a path comes down to direct names, these are what it is resolved to. -/
theorem resolve_of_resolution {p : Path} {names : List String} (h : tree.IsDirect names)
    (hp : tree.resolution p = .ok (names, true)) : tree.resolve p = .ok (.absolute names) := by
  have hreal : tree.realPath p = .ok (.absolute names) := by
    rw [realPath, hp]
    show Except.ok (Path.absolute (withoutDots names)) = _
    rw [withoutDots_of_not_mem h.not_mem]
  -- the final look-up meets no link, so this is not a loop
  have hlookup : tree.lookup (.absolute names) ≠ .error .tooManyLinks := by
    have hfrom := lookupFrom_ne_tooManyLinks (List.nil_append names ▸ h) maxLinks
    show (tree.lookupFrom maxLinks [] names).map (·.1) ≠ _
    cases hanswer : tree.lookupFrom maxLinks [] names with
    | ok answer => nofun
    | error fault =>
      rintro heq
      exact hfrom (hanswer.trans (congrArg _ (Except.error.inj heq)))
  rw [resolve, hreal]
  show (if (Path.absolute names).hasNull = true then _ else _) = _
  rw [if_neg (ne_true_of_eq_false h.hasNull_eq_false)]
  split
  · next fault hfault =>
    rw [if_neg]
    rintro rfl
    exact hlookup hfault
  · rfl

/-- Direct names are resolved to themselves. -/
theorem resolve_of_isDirect {names : List String} (h : tree.IsDirect names) :
    tree.resolve (.absolute names) = .ok (.absolute names) :=
  resolve_of_resolution h (resolveFrom_of_isDirect (List.nil_append names ▸ h) _ _)

/-- Whatever a path is resolved to is absolute. -/
theorem exists_absolute_of_resolve {p base : Path} (h : tree.resolve p = .ok base) :
    ∃ names, base = .absolute names := by
  rw [resolve, realPath] at h
  cases hp : tree.resolution p with
  | error fault =>
    rw [hp] at h
    cases h
  | ok answer =>
    rw [hp] at h
    refine ⟨withoutDots answer.1, ?_⟩
    change (if (Path.absolute (withoutDots answer.1)).hasNull = true then _ else _) = _ at h
    -- whatever the look-up says, the names are not changed any more
    repeat' split at h
    all_goals cases h
    all_goals rfl

/-- A file tree in which paths mean what they say: every directory is well formed, and the working directory is
    given without links. -/
structure IsWellFormed (tree : FileTree) : Prop where
  entries : FileEntry.areWellFormed tree.entries = true
  workingDirectory : tree.IsDirect tree.workingDirectory

/-- The directory that a path starts from has direct names. -/
private theorem IsWellFormed.isDirect_start (h : tree.IsWellFormed) (p : Path) : tree.IsDirect (tree.start p) := by
  rw [start]
  split
  · exact isDirect_nil
  · exact h.workingDirectory

/-- A path on which no link leads back to itself is resolved, to direct names. -/
theorem Resolves.exists_isDirect (h : tree.IsWellFormed) {p : Path} (hp : tree.Resolves p) :
    ∃ names, tree.resolution p = .ok (names, true) ∧ tree.IsDirect names ∧
      tree.resolve p = .ok (.absolute names) := by
  obtain ⟨names, hnames⟩ := hp
  have hdirect := isDirect_resolveFrom (h.isDirect_start p) names hnames
  exact ⟨names, hnames, hdirect, resolve_of_resolution hdirect hnames⟩

/-- Direct names behind a path that was resolved. -/
theorem resolve_join {p : Path} {base names : List String} (hp : tree.resolution p = .ok (base, true))
    (hnames : tree.IsDirect (base ++ names)) :
    tree.resolve (p.join ⟨0, names⟩) = .ok (.absolute (base ++ names)) :=
  resolve_of_resolution hnames ((resolveFrom_append names base hp).trans (resolveFrom_of_isDirect hnames _ _))

/-! ## Following names -/

/-- What is above a real directory is one. -/
private theorem exists_below?_of_isPrefix {names names' : List String} {inner : List FileEntry}
    (h : FileEntry.below? tree.entries names = some inner) (hinit : names' <+: names) :
    ∃ inner', FileEntry.below? tree.entries names' = some inner' := by
  obtain ⟨rest, rfl⟩ := hinit
  obtain ⟨within, hwithin, -⟩ := FileEntry.below?_append.1 h
  exact ⟨within, hwithin⟩

/-- A directory within a real one is real. -/
private theorem below?_concat {directory : List String} {name : String} {inner within : List FileEntry}
    (h : FileEntry.below? tree.entries directory = some inner)
    (hnamed : FileEntry.named? inner name = some (.directory name within)) :
    FileEntry.below? tree.entries (directory ++ [name]) = some within :=
  FileEntry.below?_append.2 ⟨inner, h, FileEntry.below?_cons.2 ⟨within, hnamed, rfl⟩⟩

/-- A directory that is found is a real one, whatever links lead to it. -/
theorem exists_below?_of_lookupFrom {directory names found : List String} {links left : Nat}
    (hdirectory : ∃ inner, FileEntry.below? tree.entries directory = some inner)
    (h : tree.lookupFrom links directory names = .ok (.directory found, left)) :
    ∃ inner, FileEntry.below? tree.entries found = some inner := by
  fun_induction lookupFrom tree links directory names with
  | case1 links directory =>
    obtain ⟨hfound, rfl⟩ := Prod.mk.inj (Except.ok.inj h)
    obtain rfl := Found.directory.inj hfound
    exact hdirectory
  | case2 links directory name rest hdots ih =>
    obtain ⟨inner, hinner⟩ := hdirectory
    exact ih (exists_below?_of_isPrefix hinner (List.dropLast_prefix directory)) h
  -- into the directory with the name
  | case4 links directory name rest hdots n within hnamed ih =>
    obtain ⟨inner, hinner⟩ := hdirectory
    obtain rfl : n = name := (FileEntry.mem_of_named? hnamed).2
    rw [entriesAt_of_below? hinner] at hnamed
    exact ih ⟨within, below?_concat hinner hnamed⟩ h
  | case10 directory name rest hdots n target hnamed links path ih =>
    -- the target starts at the top or at the directory of the link
    have hstart : ∃ start, FileEntry.below? tree.entries (if path.isAbsolute then [] else directory) = some start := by
      split
      · exact ⟨tree.entries, rfl⟩
      · exact hdirectory
    exact ih hstart h
  | _ => cases h

/-- Direct names lead to the directory that has them. -/
theorem eq_of_lookupFrom {directory names found : List String} {links left : Nat} {inner : List FileEntry}
    (hdirect : tree.IsDirect (directory ++ names)) (hdirectory : FileEntry.below? tree.entries directory = some inner)
    (h : tree.lookupFrom links directory names = .ok (.directory found, left)) : found = directory ++ names := by
  induction names generalizing directory inner with
  | nil =>
    rw [lookupFrom] at h
    obtain ⟨hfound, rfl⟩ := Prod.mk.inj (Except.ok.inj h)
    obtain rfl := Found.directory.inj hfound
    rw [List.append_nil]
  | cons name rest ih =>
    have hstep := hdirect directory name (by simp)
    rw [List.append_cons] at hdirect ⊢
    rw [lookupFrom, if_neg (by simpa using hstep.notDots), entriesAt_of_below? hdirectory] at h
    -- a directory is the only thing that the walk goes on from
    split at h
    · cases h
    · next n within hnamed =>
      obtain rfl : n = name := (FileEntry.mem_of_named? hnamed).2
      exact ih hdirect (below?_concat hdirectory hnamed) h
    · split at h <;> cases h
    · split at h <;> cases h
    · next n target hnamed =>
      rw [← entriesAt_of_below? hdirectory] at hnamed
      exact absurd hnamed (hstep.notLink n target)

/-- What a path from the top leads to, if it is a directory. -/
theorem directory?_absolute {names directory : List String}
    (h : tree.directory? (.absolute names) = some directory) :
    ∃ left, tree.lookupFrom maxLinks [] names = .ok (.directory directory, left) := by
  have hlookup : tree.lookup (.absolute names) = (tree.lookupFrom maxLinks [] names).map (·.1) := rfl
  rw [directory?, hlookup] at h
  cases hfrom : tree.lookupFrom maxLinks [] names with
  | error fault => simp [hfrom, Except.map] at h
  | ok answer =>
    obtain ⟨found, left⟩ := answer
    -- only a directory is answered
    cases found with
    | directory names' =>
      simp only [hfrom, Except.map, Option.some.injEq] at h
      exact ⟨left, by rw [h]⟩
    | file content => simp [hfrom, Except.map] at h
    | device content => simp [hfrom, Except.map] at h

end FileTree

end JavaLint
