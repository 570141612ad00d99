import Mathlib.Data.List.Nodup
import Mathlib.Data.String.Basic
import Mathlib.Order.Defs.LinearOrder
import JavaLint.Discovery
import JavaLint.Proofs.Files.Directories
import JavaLint.Proofs.Text.Parts

/-!
# Discovery is exact

Without following links, the walk below a root meets every file that can be reached through real directories,
except through those that are left out, and it meets each of them once. Sorted by their names, these are the
sources, and the path of a source relative to the root says where it is.

- `isJavaName_iff`: the names of Java files
- `filter_sightingsIn`: links add nothing
- `mem_sightingsAt`: one step of the walk
- `mem_sightingsIn`, `nodup_sightingsIn`: what the walk meets
- `find_eq`, `mem_map_absolute_iff`: what is found
- `IsSource.leadsBack`: relative paths and back
- `find_exact`: the sources below a root
-/

namespace JavaLint

namespace Discovery

/-! ## Names of Java files -/

/-- Something is followed by a dot and the letters of `java`, in any case. -/
def HasJavaSuffix (name : String) : Prop :=
  ∃ stem extension, name.toList = stem ++ '.' :: extension ∧ stem ≠ [] ∧ extension.map Char.toLower = "java".toList

/-- The names of Java files are those with the suffix. -/
theorem isJavaName_iff {name : String} : isJavaName name = true ↔ HasJavaSuffix name := by
  rw [isJavaName, beq_iff_eq, ← String.toList_inj, String.toList_ofList, Path.suffixOf]
  constructor
  · intro h
    split at h
    · next stem extension hcut =>
      -- what is cut off at the last dot is the suffix
      obtain ⟨htext, -⟩ := Text.cutLast?_eq_some_iff.1 hcut
      split at h
      · simp at h
      · next hne =>
        simp only [Bool.or_eq_true, String.isEmpty_iff, not_or] at hne
        refine ⟨stem.toList, extension.toList, htext, ?_, ?_⟩
        · simpa using hne.1
        · simpa using h
    · simp at h
  · rintro ⟨stem, extension, htext, hstem, hjava⟩
    -- the letters hold no dot, so this is the last one
    have hdot : '.' ∉ extension := by
      intro hmem
      have hlower : Char.toLower '.' ∈ extension.map Char.toLower := List.mem_map_of_mem hmem
      rw [hjava] at hlower
      exact absurd hlower (by decide)
    have hcut : Text.cutLast? '.' name = some (String.ofList stem, String.ofList extension) := by
      simp [Text.cutLast?_eq_some_iff, htext, hdot]
    have hextension : extension ≠ [] := by
      rintro rfl
      exact absurd hjava (by decide)
    simp [hcut, hstem, hextension, hjava]

/-! ## The walk -/

/-- Links lead nowhere. -/
def noLinks : List String → List String → String → List Sighting :=
  fun _ _ _ => []

/-- The entries of a directory are walked one after another. -/
private theorem sightingsIn_eq_flatMap (ignored : List String)
    (enter : List String → List String → String → List Sighting) (shown actual : List String)
    (entries : List FileEntry) :
    sightingsIn ignored enter shown actual entries = entries.flatMap (sightingsAt ignored enter shown actual) := by
  induction entries with
  | nil => rfl
  | cons e rest ih => rw [sightingsIn, ih, List.flatMap_cons]

/-- A file is met if its name is that of a Java file. -/
private theorem mem_sight {shown : List String} {name : String} {isLink : Bool} {s : Sighting} :
    s ∈ sight shown name isLink ↔ isJavaName name = true ∧ s = ⟨shown ++ [name], isLink⟩ := by
  rw [sight]
  split <;> simp_all

/-- If all that is met through links is links, then without links the walk is the one that leaves them out. -/
theorem filter_sightingsIn {enter : List String → List String → String → List Sighting}
    (henter : ∀ shown actual name, ∀ s ∈ enter shown actual name, s.isLink = true) (ignored shown actual : List String)
    (entries : List FileEntry) :
    (sightingsIn ignored enter shown actual entries).filter (!·.isLink) =
      sightingsIn ignored noLinks shown actual entries := by
  induction entries using FileEntry.directoryInduction generalizing shown actual with
  | step entries ih =>
    rw [sightingsIn_eq_flatMap, sightingsIn_eq_flatMap, List.filter_flatMap]
    -- entry by entry: files are no links, and a directory is walked in the same way
    refine List.flatMap_congr fun e he => ?_
    have hsight : ∀ name, (sight shown name false).filter (!·.isLink) = sight shown name false := by
      intro name
      rw [sight]
      split <;> rfl
    cases e with
    | file name content => exact hsight name
    | device name content => exact hsight name
    | link name target =>
      rw [sightingsAt, sightingsAt, noLinks, List.filter_eq_nil_iff]
      intro s hs
      simp [henter shown actual name s hs]
    | directory name inner =>
      rw [sightingsAt, sightingsAt]
      split
      · rfl
      · exact ih name inner he _ _

/-- One step of the walk: an entry that is a file is met if its name is that of a Java file, and a directory that is
    not left out is walked. -/
theorem mem_sightingsAt {ignored shown actual : List String} {e : FileEntry} {s : Sighting} :
    s ∈ sightingsAt ignored noLinks shown actual e ↔
      (e.isFile = true ∧ isJavaName e.name = true ∧ s = ⟨shown ++ [e.name], false⟩) ∨
        ∃ name inner, e = .directory name inner ∧ name ∉ ignored ∧
          s ∈ sightingsIn ignored noLinks (shown ++ [name]) (actual ++ [name]) inner := by
  cases e with
  | file name content => simp [sightingsAt, mem_sight, FileEntry.isFile, FileEntry.name]
  | device name content => simp [sightingsAt, mem_sight, FileEntry.isFile, FileEntry.name]
  | link name target => simp [sightingsAt, noLinks, FileEntry.isFile]
  | directory name inner =>
    rw [sightingsAt]
    by_cases hignored : name ∈ ignored <;> simp [hignored, FileEntry.isFile]

/-- Through directories that are not left out there is a way to a Java file with the given name. A file is any
    entry that is neither a directory nor a link. -/
structure IsReached (ignored : List String) (entries : List FileEntry) (dirs : List String) (name : String) :
    Prop where
  kept : ∀ d ∈ dirs, d ∉ ignored
  java : isJavaName name = true
  file : ∃ inner, FileEntry.below? entries dirs = some inner ∧ ∃ e ∈ inner, e.name = name ∧ e.isFile = true

/-- The way starts with a directory. -/
private theorem isReached_cons {ignored : List String} {entries : List FileEntry} {d : String} {dirs : List String}
    {name : String} :
    IsReached ignored entries (d :: dirs) name ↔
      d ∉ ignored ∧ ∃ inner, FileEntry.named? entries d = some (.directory d inner) ∧
        IsReached ignored inner dirs name := by
  constructor
  · rintro ⟨hkept, hjava, inner, hbelow, hfile⟩
    obtain ⟨hd, hdirs⟩ := List.forall_mem_cons.1 hkept
    obtain ⟨within, hnamed, hrest⟩ := FileEntry.below?_cons.1 hbelow
    exact ⟨hd, within, hnamed, hdirs, hjava, inner, hrest, hfile⟩
  · rintro ⟨hd, within, hnamed, hdirs, hjava, inner, hrest, hfile⟩
    exact ⟨List.forall_mem_cons.2 ⟨hd, hdirs⟩, hjava, inner, FileEntry.below?_cons.2 ⟨within, hnamed, hrest⟩, hfile⟩

/-- The walk meets exactly the files that are reached. -/
theorem mem_sightingsIn {ignored : List String} {entries : List FileEntry}
    (h : FileEntry.areWellFormed entries = true) {shown actual : List String} {s : Sighting} :
    s ∈ sightingsIn ignored noLinks shown actual entries ↔
      ∃ dirs name, s = ⟨shown ++ dirs ++ [name], false⟩ ∧ IsReached ignored entries dirs name := by
  -- by the first directory on the way, if there is one
  induction entries using FileEntry.directoryInduction generalizing shown actual with
  | step entries ih =>
    rw [sightingsIn_eq_flatMap, List.mem_flatMap]
    constructor
    · rintro ⟨e, he, hs⟩
      rcases mem_sightingsAt.1 hs with ⟨hfile, hjava, rfl⟩ | ⟨d, inner, rfl, hignored, hs⟩
      · exact ⟨[], e.name, by simp, List.forall_mem_nil _, hjava, entries, rfl, e, he, rfl, hfile⟩
      · -- through the first directory
        obtain ⟨dirs, name, rfl, hreached⟩ := (ih d inner he (FileEntry.areWellFormed_of_mem h he).2).1 hs
        -- no other entry has the name of this directory
        have hnamed : FileEntry.named? entries d = some (.directory d inner) :=
          FileEntry.named?_of_mem (FileEntry.areWellFormed_iff.1 h).1 he
        exact ⟨d :: dirs, name, by simp, isReached_cons.2 ⟨hignored, inner, hnamed, hreached⟩⟩
    · rintro ⟨dirs, name, rfl, hreached⟩
      cases dirs with
      | nil =>
        obtain ⟨-, hjava, inner, hbelow, e, he, rfl, hfile⟩ := hreached
        obtain rfl := Option.some.inj hbelow
        exact ⟨e, he, mem_sightingsAt.2 (.inl ⟨hfile, hjava, by simp⟩)⟩
      | cons d dirs =>
        obtain ⟨hd, inner, hnamed, hrest⟩ := isReached_cons.1 hreached
        have hmem := (FileEntry.mem_of_named? hnamed).1
        refine ⟨.directory d inner, hmem, mem_sightingsAt.2 (.inr ⟨d, inner, rfl, hd, ?_⟩)⟩
        exact (ih d inner hmem (FileEntry.areWellFormed_of_mem h hmem).2).2 ⟨dirs, name, by simp, hrest⟩

/-- What the walk meets at an entry is called after it. -/
private theorem isPrefix_of_mem_sightingsAt {ignored shown actual : List String} {entries : List FileEntry}
    (h : FileEntry.areWellFormed entries = true) {e : FileEntry} (he : e ∈ entries) {s : Sighting}
    (hs : s ∈ sightingsAt ignored noLinks shown actual e) : shown ++ [e.name] <+: s.names := by
  rcases mem_sightingsAt.1 hs with ⟨-, -, rfl⟩ | ⟨d, inner, rfl, -, hs⟩
  · exact List.prefix_refl _
  · obtain ⟨dirs, name, rfl, -⟩ := (mem_sightingsIn (FileEntry.areWellFormed_of_mem h he).2).1 hs
    show shown ++ [d] <+: shown ++ [d] ++ dirs ++ [name]
    rw [List.append_assoc (shown ++ [d])]
    exact List.prefix_append _ _

/-- Nothing is met twice. -/
theorem nodup_sightingsIn {ignored : List String} {entries : List FileEntry}
    (h : FileEntry.areWellFormed entries = true) (shown actual : List String) :
    (sightingsIn ignored noLinks shown actual entries).Nodup := by
  induction entries using FileEntry.directoryInduction generalizing shown actual with
  | step entries ih =>
    rw [sightingsIn_eq_flatMap, List.nodup_flatMap]
    constructor
    · -- one entry gives one file, or what is below it
      intro e he
      have hsight : ∀ name, (sight shown name false).Nodup := by
        intro name
        rw [sight]
        split <;> simp
      cases e with
      | file name content => exact hsight name
      | device name content => exact hsight name
      | link name target => exact List.nodup_nil
      | directory name inner =>
        rw [sightingsAt]
        split
        · exact List.nodup_nil
        · exact ih name inner he (FileEntry.areWellFormed_of_mem h he).2 _ _
    · -- entries with different names are walked under different names
      refine (List.pairwise_map.1 (FileEntry.areWellFormed_iff.1 h).1).imp_of_mem fun {e e'} he he' hne => ?_
      intro s hs hs'
      have hinit := isPrefix_of_mem_sightingsAt h he hs
      have hinit' := isPrefix_of_mem_sightingsAt h he' hs'
      have heq : shown ++ [e.name] = shown ++ [e'.name] :=
        (List.prefix_of_prefix_length_le hinit hinit' (by simp)).eq_of_length (by simp)
      exact hne (List.singleton_inj.1 (List.append_cancel_left heq))

/-! ## The order of the sources -/

/-- Names are compared one by one. -/
private theorem precedes_iff {a b : List String} : precedes a b = true ↔ a ≤ b := by
  simp [precedes]

/-- Lists of names that differ are sorted strictly. -/
private theorem pairwise_mergeSort_precedes {names : List (List String)} (h : names.Nodup) :
    (names.mergeSort precedes).Pairwise (· < ·) := by
  have htrans : ∀ a b c, precedes a b = true → precedes b c = true → precedes a c = true := by
    intro a b c hab hbc
    exact precedes_iff.2 ((precedes_iff.1 hab).trans (precedes_iff.1 hbc))
  have htotal : ∀ a b, (precedes a b || precedes b a) = true := by
    intro a b
    rw [Bool.or_eq_true, precedes_iff, precedes_iff]
    exact le_total a b
  -- sorted by an order that is total, and without repeats
  have hsorted := List.pairwise_mergeSort htrans htotal names
  have hnodup : (names.mergeSort precedes).Nodup := (List.mergeSort_perm names precedes).nodup_iff.2 h
  exact (hsorted.and hnodup).imp fun hle => lt_of_le_of_ne (precedes_iff.1 hle.1) hle.2

/-! ## What is found -/

/-- The path is that of a source below the directory, which is known under the names `shown`: a Java file that is
    kept, and every directory on the way to it is a real one that is not left out. -/
def IsSource (tree : FileTree) (ignored : List String) (keeps : Path → Bool) (shown directory : List String)
    (p : Path) : Prop :=
  ∃ dirs name, p = .absolute (shown ++ dirs ++ [name]) ∧ (∀ d ∈ dirs, d ∉ ignored) ∧ HasJavaSuffix name ∧
    keeps p = true ∧ ∃ inner, FileEntry.below? tree.entries (directory ++ dirs) = some inner ∧
      ∃ e ∈ inner, e.name = name ∧ e.isFile = true

variable {tree : FileTree} {ignored : List String} {keeps : Path → Bool} {shown directory : List String}
  {entries : List FileEntry} {left : Nat}

/-- If links are not followed, all that is met through them is links. -/
private theorem exists_sightingsBelow_eq
    (h : tree.lookupFrom FileTree.maxLinks [] shown = .ok (.directory directory, left))
    (hbelow : FileEntry.below? tree.entries directory = some entries) :
    ∃ enter, (∀ shown actual name, ∀ s ∈ enter shown actual name, s.isLink = true) ∧
      sightingsBelow tree { ignored, keeps } shown = sightingsIn ignored enter shown directory entries := by
  -- the root was found, and the walk starts there
  have hwalk : sightingsBelow tree { ignored, keeps } shown =
      sightings tree { ignored, keeps } (FileTree.maxLinks + 1) left shown directory := by
    rw [sightingsBelow, h]
  refine ⟨_, ?_, hwalk.trans (by rw [sightings, FileTree.entriesAt_of_below? hbelow])⟩
  intro shown actual name s hs
  dsimp only at hs
  split at hs
  · simp at hs
  · rw [(mem_sight.1 hs).2]

/-- The names of the sources below a real directory, in no order yet. -/
def sourceNames (ignored : List String) (keeps : Path → Bool) (shown directory : List String)
    (entries : List FileEntry) : List (List String) :=
  ((sightingsIn ignored noLinks shown directory entries).filter fun s =>
    keeps (.absolute s.names)).map (·.names)

/-- The names of what is met, links and what is not kept left out. -/
private theorem map_names_sightingsBelow
    (h : tree.lookupFrom FileTree.maxLinks [] shown = .ok (.directory directory, left))
    (hbelow : FileEntry.below? tree.entries directory = some entries) :
    ((sightingsBelow tree { ignored, keeps } shown).filter (isSource { ignored, keeps })).map (·.names) =
      sourceNames ignored keeps shown directory entries := by
  obtain ⟨enter, henter, heq⟩ := exists_sightingsBelow_eq h hbelow
  rw [sourceNames, heq, ← filter_sightingsIn henter, List.filter_filter]
  congr 1
  refine List.filter_congr fun s _ => ?_
  simp [isSource, Bool.and_comm]

/-- These are the names of the files that are reached and kept. -/
private theorem mem_sourceNames (h : FileEntry.areWellFormed entries = true) {names : List String} :
    names ∈ sourceNames ignored keeps shown directory entries ↔
      ∃ dirs name, names = shown ++ dirs ++ [name] ∧ keeps (.absolute names) = true ∧
        IsReached ignored entries dirs name := by
  simp only [sourceNames, List.mem_map, List.mem_filter, mem_sightingsIn h]
  constructor
  · rintro ⟨s, ⟨⟨dirs, name, rfl, hreached⟩, hkeeps⟩, rfl⟩
    exact ⟨dirs, name, rfl, hkeeps, hreached⟩
  · rintro ⟨dirs, name, rfl, hkeeps, hreached⟩
    exact ⟨_, ⟨⟨dirs, name, rfl, hreached⟩, hkeeps⟩, rfl⟩

/-- No source has its name twice. -/
private theorem nodup_sourceNames (h : FileEntry.areWellFormed entries = true) :
    (sourceNames ignored keeps shown directory entries).Nodup := by
  refine List.Nodup.map_on ?_ ((nodup_sightingsIn h shown directory).filter _)
  -- none of what is met is a link, so the names say it all
  intro s hs t ht heq
  obtain ⟨_, _, rfl, -⟩ := (mem_sightingsIn h).1 (List.mem_filter.1 hs).1
  obtain ⟨_, _, rfl, -⟩ := (mem_sightingsIn h).1 (List.mem_filter.1 ht).1
  exact congrArg (Sighting.mk · false) heq

/-- What is found are the sources in order. -/
theorem find_eq {root : Path} (hroot : tree.resolve root = .ok (.absolute shown))
    (h : tree.lookupFrom FileTree.maxLinks [] shown = .ok (.directory directory, left))
    (hbelow : FileEntry.below? tree.entries directory = some entries) :
    find tree { ignored, keeps } root =
      .ok (((sourceNames ignored keeps shown directory entries).mergeSort precedes).map .absolute) := by
  have hlookup : tree.lookup (.absolute shown) = .ok (.directory directory) :=
    congrArg (Except.map Prod.fst) h
  simp only [find, hroot, FileTree.contains, FileTree.directory?, hlookup]
  exact congrArg (fun names => Except.ok ((names.mergeSort precedes).map Path.absolute))
    (map_names_sightingsBelow h hbelow)

/-- The paths of the sources. -/
theorem mem_map_absolute_iff (h : FileEntry.areWellFormed entries = true)
    (hbelow : FileEntry.below? tree.entries directory = some entries) {p : Path} :
    p ∈ ((sourceNames ignored keeps shown directory entries).mergeSort precedes).map .absolute ↔
      IsSource tree ignored keeps shown directory p := by
  simp only [List.mem_map, List.mem_mergeSort, mem_sourceNames h]
  -- names below the start are names below the root of the tree, behind those of the start
  constructor
  · rintro ⟨_, ⟨dirs, name, rfl, hkeeps, hkept, hjava, inner, hinner, hfile⟩, rfl⟩
    exact ⟨dirs, name, rfl, hkept, isJavaName_iff.1 hjava, hkeeps, inner,
      FileEntry.below?_append.2 ⟨entries, hbelow, hinner⟩, hfile⟩
  · rintro ⟨dirs, name, rfl, hkept, hjava, hkeeps, inner, hinner, hfile⟩
    obtain ⟨entries', hbelow', hinner⟩ := FileEntry.below?_append.1 hinner
    obtain rfl := Option.some.inj (hbelow.symm.trans hbelow')
    exact ⟨_, ⟨dirs, name, rfl, hkeeps, hkept, isJavaName_iff.2 hjava, inner, hinner, hfile⟩, rfl⟩

/-! ## Relative paths -/

/-- The path of a source is direct, and what follows the directory is made up of names. -/
private theorem IsSource.exists_names (h : tree.IsWellFormed) {p : Path}
    (hp : IsSource tree ignored keeps directory directory p) :
    ∃ names, p = .absolute (directory ++ names) ∧ tree.IsDirect (directory ++ names) ∧ names ≠ [] ∧
      ∀ name ∈ names, FileEntry.isName name = true := by
  obtain ⟨dirs, name, rfl, -, -, -, inner, hbelow, e, he, rfl, hfile⟩ := hp
  obtain ⟨hinner, hdirs⟩ := FileEntry.areWellFormed_of_below? h.entries hbelow
  obtain ⟨hnodup, hentries⟩ := FileEntry.areWellFormed_iff.1 hinner
  have hname := FileEntry.isName_of_isWellFormed (hentries e he)
  refine ⟨dirs ++ [e.name], by rw [List.append_assoc], ?_, by simp, ?_⟩
  · rw [← List.append_assoc, FileTree.isDirect_concat]
    obtain ⟨-, -, hdots, hnull, -⟩ := FileEntry.isName_iff.1 hname
    refine ⟨FileTree.isDirect_of_below? h.entries hbelow, hdots, hnull, ?_⟩
    -- the entry with the name is the file
    rw [FileTree.entriesAt_of_below? hbelow, FileEntry.named?_of_mem hnodup he]
    intro n target heq
    obtain rfl := Option.some.inj heq
    cases hfile
  · intro name hmem
    rcases List.mem_append.1 hmem with hmem | hmem
    · exact hdirs name (List.mem_append_right _ hmem)
    · obtain rfl := List.mem_singleton.1 hmem
      exact hname

/-- The path of what is below the root, relative to the root. -/
private theorem relativePath_of_isDirect {root : Path} {base below : List String}
    (hroot : tree.resolve root = .ok (.absolute base)) (h : tree.IsDirect (base ++ below)) (hne : below ≠ []) :
    relativePath tree root (.absolute (base ++ below)) = .ok ("/".intercalate below) := by
  rw [relativePath, FileTree.resolve_of_isDirect h, hroot]
  simp [Path.absolute, Path.text, hne, bind, Except.bind, pure, Except.pure]

end Discovery

/-- Names with slashes between them are read as a relative path. -/
private theorem Path.ofString_intercalate {names : List String} (hne : names ≠ [])
    (h : ∀ name ∈ names, FileEntry.isName name = true) : Path.ofString ("/".intercalate names) = ⟨0, names⟩ := by
  have hnames : ∀ name ∈ names, name ≠ "" ∧ name ≠ "." ∧ '/' ∉ name.toList := by
    intro name hname
    obtain ⟨hempty, hdot, -, -, hslash⟩ := FileEntry.isName_iff.1 (h name hname)
    exact ⟨hempty, hdot, hslash⟩
  have hsplit : Text.split '/' ("/".intercalate names) = names :=
    Text.split_intercalate rfl hne fun name hname => (hnames name hname).2.2
  -- no name is dropped
  have hfilter : (names.filter fun name => name != "" && name != ".") = names := by
    rw [List.filter_eq_self]
    intro name hname
    simp [(hnames name hname).1, (hnames name hname).2.1]
  -- the first name is not empty and does not start with a slash
  have hslashes : ("/".intercalate names).toList.takeWhile (· == '/') = [] := by
    obtain ⟨first, rest, rfl⟩ := List.exists_cons_of_ne_nil hne
    obtain ⟨hfirst, -, hslash⟩ := hnames first List.mem_cons_self
    obtain ⟨c, chars, hchars⟩ := List.exists_cons_of_ne_nil (String.toList_eq_nil_iff.not.2 hfirst)
    have htext : ∃ more, ("/".intercalate (first :: rest)).toList = c :: more := by
      cases rest <;> simp [String.intercalate_cons_cons, hchars]
    obtain ⟨more, htext⟩ := htext
    have hc : c ≠ '/' := by
      rintro rfl
      exact hslash (hchars ▸ List.mem_cons_self)
    rw [htext, List.takeWhile_cons_of_neg (by simpa using hc)]
  rw [Path.ofString, hsplit, hfilter, hslashes]
  rfl

namespace Discovery

/-- The relative path of a source: it is made up of names, and it leads back to the source from the root, be it
    resolved or not. -/
structure LeadsBack (tree : FileTree) (root base p : Path) (relative : String) : Prop where
  relativePath_eq : relativePath tree root p = .ok relative
  names : ∃ names, names ≠ [] ∧ relative = "/".intercalate names ∧
    ∀ name ∈ names, name ≠ "" ∧ name ≠ "." ∧ name ≠ ".." ∧ '/' ∉ name.toList
  join_base : base.join (.ofString relative) = p
  resolve_join : tree.resolve (root.join (.ofString relative)) = .ok p

/-- Every source has a relative path that leads back to it. -/
theorem IsSource.leadsBack (h : tree.IsWellFormed) {root p : Path} {base : List String}
    (hbase : tree.resolution root = .ok (base, true)) (hroot : tree.resolve root = .ok (.absolute base))
    (hp : IsSource tree ignored keeps base base p) :
    ∃ relative, LeadsBack tree root (.absolute base) p relative := by
  obtain ⟨names, rfl, hdirect, hne, hnames⟩ := hp.exists_names h
  have hpath := Path.ofString_intercalate hne hnames
  -- the relative path is the names with slashes, and reading it gives the names back
  refine ⟨"/".intercalate names, relativePath_of_isDirect hroot hdirect hne, ⟨names, hne, rfl, ?_⟩, ?_, ?_⟩
  · intro name hname
    obtain ⟨hempty, hdot, hdots, -, hslash⟩ := FileEntry.isName_iff.1 (hnames name hname)
    exact ⟨hempty, hdot, hdots, hslash⟩
  · rw [hpath]
    rfl
  · rw [hpath]
    exact FileTree.resolve_join hbase hdirect

/-- Links are not followed, and the root leads to a directory once it is resolved. Then the sources are found in
    strictly increasing order. They are the Java files that are reached through real directories which are not left
    out. Unless a link on the way to the root leads back to itself, the resolved root is this directory, and the
    relative paths of the sources differ and lead back to them. -/
theorem find_exact (tree : FileTree) (ignored : List String) (keeps : Path → Bool) (root base : Path)
    (directory : List String) (hwf : tree.IsWellFormed) (hresolve : tree.resolve root = .ok base)
    (hdirectory : tree.directory? base = some directory) :
    ∃ found, find tree { ignored, keeps } root = .ok found ∧ found.Pairwise (fun p q => p.names < q.names) ∧
      (∀ p, p ∈ found ↔ IsSource tree ignored keeps base.names directory p) ∧
      (tree.Resolves root → directory = base.names ∧
        (∀ p ∈ found, ∃ relative, LeadsBack tree root base p relative) ∧
        ∀ p ∈ found, ∀ q ∈ found, relativePath tree root p = relativePath tree root q → p = q) := by
  obtain ⟨shown, rfl⟩ := FileTree.exists_absolute_of_resolve hresolve
  obtain ⟨left, hlookup⟩ := FileTree.directory?_absolute hdirectory
  -- the root leads to a real directory
  obtain ⟨entries, hbelow⟩ := FileTree.exists_below?_of_lookupFrom ⟨_, rfl⟩ hlookup
  have hentries := (FileEntry.areWellFormed_of_below? hwf.entries hbelow).1
  refine ⟨_, find_eq hresolve hlookup hbelow, ?_, fun p => mem_map_absolute_iff hentries hbelow, ?_⟩
  · exact List.pairwise_map.2 (pairwise_mergeSort_precedes (nodup_sourceNames hentries))
  · intro hroot
    obtain ⟨names, hresolution, hdirect, hnames⟩ := hroot.exists_isDirect hwf
    obtain rfl : shown = names := congrArg Path.names (Except.ok.inj (hresolve.symm.trans hnames))
    have hdirect' : tree.IsDirect ([] ++ shown) := hdirect
    -- the resolved root has direct names, so it is the directory itself
    obtain rfl : directory = shown := FileTree.eq_of_lookupFrom hdirect' rfl hlookup
    have hback : ∀ p ∈ ((sourceNames ignored keeps directory directory entries).mergeSort precedes).map .absolute,
        ∃ relative, LeadsBack tree root (.absolute directory) p relative := by
      intro p hp
      exact ((mem_map_absolute_iff hentries hbelow).1 hp).leadsBack hwf hresolution hresolve
    refine ⟨rfl, hback, ?_⟩
    -- a relative path leads back to one path only
    intro p hp q hq heq
    obtain ⟨relative, hrelative⟩ := hback p hp
    obtain ⟨relative', hrelative'⟩ := hback q hq
    rw [hrelative.relativePath_eq, hrelative'.relativePath_eq, Except.ok.injEq] at heq
    rw [← hrelative.join_base, heq, hrelative'.join_base]

/-- A project that is also known by a link. It has a directory named like a source, one that is left out, and links
    to a file, to a directory and to nothing. -/
def linkedProject : FileTree where
  entries :=
    [.directory "work"
      [.directory "project"
        [.directory "X.java" [.file "B.JAVA" (.ok default), .file ".java" (.ok default)],
          .directory "build" [.file "C.java" (.error .permissionDenied)],
          .file "A.java" (.ok default),
          .link "L.java" "A.java",
          .link "more" "../other",
          .link "None.java" "nowhere"],
        .directory "other" [.file "D.java" (.ok default)],
        .link "here" "./project/../project"]]
  workingDirectory := ["work"]

/-- In the project, reached through its link, the walk finds the file in the directory that is named like a
    source. -/
theorem find_exact_linkedProject :
    linkedProject.IsWellFormed ∧ linkedProject.Resolves (.ofString "here") ∧
      ∃ found, find linkedProject { ignored := ["build"] } (.ofString "here") = .ok found ∧
        found.Pairwise (fun p q => p.names < q.names) ∧
        .absolute ["work", "project", "X.java", "B.JAVA"] ∈ found ∧
        .absolute ["work", "project", "build", "C.java"] ∉ found ∧
        .absolute ["work", "project", "L.java"] ∉ found ∧
        ∀ p ∈ found, ∃ relative,
          LeadsBack linkedProject (.ofString "here") (.absolute ["work", "project"]) p relative := by
  have hentries : FileEntry.areWellFormed linkedProject.entries = true := by decide
  have hwf : linkedProject.IsWellFormed := ⟨hentries, FileTree.isDirect_of_below? hentries rfl⟩
  have hpath : Path.ofString "here" = ⟨0, ["here"]⟩ := by cbv
  have htarget : Path.ofString "./project/../project" = ⟨0, ["project", "..", "project"]⟩ := by cbv
  have hnames : Path.isNullName "here" = false ∧ Path.isNullName "project" = false := by decide
  -- the link goes down and up again on its way
  have hresolution : linkedProject.resolution (.ofString "here") = .ok (["work", "project"], true) := by
    simp [FileTree.resolution, hpath, htarget, hnames, FileTree.start, Path.isAbsolute, FileTree.resolveFrom,
      linkedProject, FileTree.entriesAt, FileEntry.below?, FileEntry.named?, FileEntry.name,
      FileEntry.linkCountIn, FileEntry.linkCount]
  have hresolves : linkedProject.Resolves (.ofString "here") := ⟨_, hresolution⟩
  have hresolve : linkedProject.resolve (.ofString "here") = .ok (.absolute ["work", "project"]) :=
    FileTree.resolve_of_resolution (FileTree.isDirect_of_below? hentries rfl) hresolution
  have hdirectory : linkedProject.directory? (.absolute ["work", "project"]) = some ["work", "project"] := by cbv
  obtain ⟨found, hfind, hsorted, hfound, hrelative⟩ := find_exact linkedProject ["build"] (fun _ => true)
    (.ofString "here") (.absolute ["work", "project"]) ["work", "project"] hwf hresolve hdirectory
  have hfile : .absolute ["work", "project", "X.java", "B.JAVA"] ∈ found := by
    refine (hfound _).2 ⟨["X.java"], "B.JAVA", rfl, by decide, ⟨['B'], "JAVA".toList, by decide⟩, rfl, _, rfl, ?_⟩
    exact ⟨_, List.mem_cons_self, rfl, rfl⟩
  refine ⟨hwf, hresolves, found, hfind, hsorted, hfile, ?_, ?_, (hrelative hresolves).2.1⟩
  · -- the only way to this file is through the directory that is left out
    rw [hfound]
    rintro ⟨dirs, name, hp, hdirs, -⟩
    have hsplit : ["build"] ++ ["C.java"] = dirs ++ [name] := by simpa [Path.absolute] using hp
    obtain ⟨rfl, -⟩ := List.append_inj' hsplit rfl
    exact hdirs "build" (by decide) (by decide)
  · rw [hfound]
    rintro ⟨dirs, name, hp, -, -, -, inner, hbelow, e, he, hname, hfile⟩
    have hsplit : [] ++ ["L.java"] = dirs ++ [name] := by simpa [Path.absolute] using hp
    obtain ⟨rfl, heq⟩ := List.append_inj' hsplit rfl
    -- the entry with this name is a link
    have hlinks : ∀ e ∈ linkedProject.entriesAt ["work", "project"], [e.name] = ["L.java"] → e.isFile = false := by
      decide
    rw [List.append_nil] at hbelow
    rw [← FileTree.entriesAt_of_below? hbelow] at he
    rw [hlinks e he (by rw [hname, heq])] at hfile
    cases hfile

end Discovery

end JavaLint
