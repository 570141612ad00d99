import JavaLint.Analysis.Run
import JavaLint.Proofs.Analysis.Totality
import JavaLint.Proofs.Files.Directories
import JavaLint.Proofs.Results.Listing

/-!
# Runs over many files

A run over a list of files is put together from the analyses of the single files: each comes out once, in
its directory and in the order of the list, and nothing else comes out. The analysis of a file is the same
in every run, and so is the run for every number of workers. Only a path that means nothing stands in the
way: the run then ends without a result. A link that leads back to itself makes such a path.

- `Analyzer.exists_analyzeFile_eq_ok`: every file has an analysis, under the path that was given
- `obstacle?`, `obstacle?_eq_none_of_resolves`: what stands in the way of a run, and when nothing does
- `Analyzer.analyzePooled_eq`: several workers do what a single one does
- `Analyzer.aggregate_eq_ok`, `Analyzer.aggregate_eq_error`: analyses are attached one after another
- `Run.Assembles`: a run is put together from a list of analyses
- `Analyzer.analyze_assembles`: every run is put together from the analyses of its files
-/

namespace JavaLint

open Discovery (relativePath)

/-! ## The analysis of one file -/

/-- What the analysis adds to a results tree. -/
def FileAnalysis.results (a : FileAnalysis) : FileResults := ⟨a.path, a.violations⟩

/-- A path that can be one leads to something that is read, or to an access fault. -/
theorem FileTree.exists_read_eq_ok (files : FileTree) {p : Path} (h : p.hasNull = false) :
    ∃ content, files.read p = .ok content := by
  rw [read, if_neg (ne_true_of_eq_false h)]
  split <;> exact ⟨_, rfl⟩

/-- A unit has the path it was parsed under. -/
private theorem SourceUnit.path_of_parse {path : String} {source : Bytes} {tree : Concrete} {u : SourceUnit}
    (h : parse path source tree = .ok u) : u.path = path := by
  unfold parse at h
  split at h
  · cases h
  · split at h
    · cases h
    · cases h
      rfl

/-- A file that was read is loaded under the path that was given, or it cannot be parsed. -/
private theorem SourceUnit.load_of_read {files : FileTree} {p : Path} {content : Content}
    (hread : files.read p = .ok content) (path : String) :
    (∃ u, load files p (some path) = .ok u ∧ u.path = path) ∨
      ∃ failure, load files p (some path) = .error (.parse failure) := by
  rw [load, hread]
  cases content with
  | error fault => exact .inr ⟨_, rfl⟩
  | ok content =>
    obtain ⟨source, tree⟩ := content
    -- a path was given, so the file is parsed under it
    show (∃ u, (parse path source tree).mapError Error.parse = .ok u ∧ u.path = path) ∨
      ∃ failure, (parse path source tree).mapError Error.parse = .error (.parse failure)
    cases hparse : parse path source tree with
    | error failure => exact .inr ⟨failure, rfl⟩
    | ok u => exact .inl ⟨u, rfl, path_of_parse hparse⟩

namespace Analyzer

/-- The analysis of a unit has its path. -/
private theorem path_of_analyzeUnit {analyzer : Analyzer} {u : SourceUnit} {a : FileAnalysis}
    (h : analyzer.analyzeUnit u = .ok a) : a.path = u.path := by
  rw [analyzeUnit] at h
  cases hrules : Contribution.ofRules (analyzer.scopes u) u analyzer.rules with
  | error e => simp [hrules, bind, Except.bind] at h
  | ok c =>
    simp only [hrules, bind, Except.bind, pure, Except.pure, Except.ok.injEq] at h
    rw [← h]

/-- Every file has an analysis under rules that passed validation, and it is known under the path that was
    given. -/
theorem exists_analyzeFile_eq_ok {rules : List Rule} {useSuppressions : Bool} {workers : Int}
    {analyzer : Analyzer} (hanalyzer : ofRules (some rules) useSuppressions workers = .ok analyzer)
    (files : FileTree) {p : Path} (hp : p.hasNull = false) (path : String) :
    ∃ a, analyzer.analyzeFile files p (some path) = .ok a ∧ a.path = path := by
  obtain ⟨content, hread⟩ := files.exists_read_eq_ok hp
  rw [analyzeFile]
  -- a file that can be read is loaded and analysed, or its failure is the analysis
  rcases SourceUnit.load_of_read hread path with ⟨u, hload, hpath⟩ | ⟨failure, hload⟩
  · obtain ⟨a, hrun, -⟩ := exists_analyzeUnit_of_ofRules hanalyzer u
    rw [hload]
    refine ⟨{ a with log := SourceUnit.loadLog files p (some path) ++ a.log }, ?_, ?_⟩
    · simp only [hrun, Except.mapError, bind, Except.bind, pure, Except.pure]
    · exact (path_of_analyzeUnit hrun).trans hpath
  · rw [hload]
    exact ⟨_, rfl, rfl⟩

/-- A path with a null byte ends the analysis. -/
private theorem analyzeFile_of_hasNull (analyzer : Analyzer) (files : FileTree) {p : Path} (hp : p.hasNull = true)
    (path : Option String) : analyzer.analyzeFile files p path = .error (.badPath .nullByte) := by
  rw [analyzeFile, SourceUnit.load, FileTree.read, if_pos hp]

end Analyzer

/-! ## What stands in the way of a run -/

/-- The path of a file relative to the root of a run, which is resolved first. -/
def relativeTo (files : FileTree) (root p : Path) : Except PathFault String := do
  relativePath files (← files.resolve root) p

/-- Once the root is resolved, paths are relative to that. -/
private theorem relativeTo_eq {files : FileTree} {root base : Path} (h : files.resolve root = .ok base) (p : Path) :
    relativeTo files root p = relativePath files base p := by
  rw [relativeTo, h]
  rfl

/-- The file has a path relative to the root, and its own path can be one. -/
def IsNamed (files : FileTree) (root p : Path) : Prop :=
  p.hasNull = false ∧ ∃ relative, relativeTo files root p = .ok relative

/-- Files that all have a relative path are listed together with it. -/
private theorem relativePaths_eq_ok {files : FileTree} {base : Path} {paths : List Path} {relative : Path → String}
    (h : ∀ p ∈ paths, relativePath files base p = .ok (relative p)) :
    Discovery.relativePaths files base paths = .ok (paths.map fun p => (p, relative p)) := by
  refine mapM_eq_ok fun p hp => ?_
  rw [h p hp]
  rfl

/-- The fault of something that has failed. -/
def faultOf {α : Type} : Except PathFault α → Option PathFault
  | .error fault => some fault
  | .ok _ => none

/-- There is no fault in what has succeeded. -/
private theorem faultOf_eq_none_iff {α : Type} {outcome : Except PathFault α} :
    faultOf outcome = none ↔ ∃ a, outcome = .ok a := by
  cases outcome <;> simp [faultOf]

/-- There is a fault in what has failed with it. -/
private theorem faultOf_eq_some_iff {α : Type} {outcome : Except PathFault α} {fault : PathFault} :
    faultOf outcome = some fault ↔ outcome = .error fault := by
  cases outcome <;> simp [faultOf]

/-- The fault that ends a run over the files, if there is one. The root has to be resolved first, then the
    relative paths of all files are computed, and only then are the files read. -/
def obstacle? (files : FileTree) (root : Path) (paths : List Path) : Option PathFault :=
  (faultOf (files.resolve root)).or <|
    (paths.findSome? fun p => faultOf (relativeTo files root p)).or <|
      if paths.any (·.hasNull) then some .nullByte else none

/-- Nothing stands in the way if the root can be resolved and every file is named. -/
theorem obstacle?_eq_none_iff {files : FileTree} {root : Path} {paths : List Path} :
    obstacle? files root paths = none ↔
      (∃ base, files.resolve root = .ok base) ∧ ∀ p ∈ paths, IsNamed files root p := by
  rw [obstacle?, Option.or_eq_none_iff, Option.or_eq_none_iff, faultOf_eq_none_iff,
    List.findSome?_eq_none_iff]
  simp only [IsNamed, faultOf_eq_none_iff, ite_eq_right_iff, reduceCtorEq, imp_false, List.any_eq_true, not_exists,
    not_and, Bool.not_eq_true, and_congr_right_iff]
  -- the two conditions on a file are checked for all files, one after the other
  intro _
  exact ⟨fun h p hp => ⟨h.2 p hp, h.1 p hp⟩, fun h => ⟨fun p hp => (h p hp).2, fun p hp => (h p hp).1⟩⟩

/-- A path on which no link leads back to itself holds no null byte: all its names have been met. -/
private theorem FileTree.hasNull_of_resolveFrom {files : FileTree} {fuel : Nat} {active : List (List String)}
    {directory names : List String} : ∀ found : List String,
    files.resolveFrom fuel active directory names = .ok (found, true) → names.any Path.isNullName = false := by
  fun_induction resolveFrom files fuel active directory names with
  | case1 fuel active directory => exact fun _ _ => rfl
  | case2 fuel active directory name rest hdots ih =>
    intro found h
    rw [List.any_cons, ih found h, beq_iff_eq.1 hdots]
    decide
  -- a link is replaced by its target, and the walk goes on from there
  | case6 active directory name rest hdots hnull here n target hnamed links hactive path names hpath ihpath ih =>
    intro found h
    rw [List.any_cons, ih found h, Bool.eq_false_iff.2 hnull]
    rfl
  | case9 fuel active directory name rest hdots hnull here hlink ih =>
    intro found h
    rw [List.any_cons, ih found h, Bool.eq_false_iff.2 hnull]
    rfl
  | case3 | case4 | case5 | case7 | case8 =>
    -- the walk ends at a null name, or at a link that leads back, and resolves nothing
    intro found h
    cases h

/-- If no link on the way to the root or to a file leads back to itself, nothing stands in the way. -/
theorem obstacle?_eq_none_of_resolves {files : FileTree} (h : files.IsWellFormed) {root : Path}
    {paths : List Path} (hroot : files.Resolves root) (hpaths : ∀ p ∈ paths, files.Resolves p) :
    obstacle? files root paths = none := by
  obtain ⟨base, -, hdirect, hbase⟩ := hroot.exists_isDirect h
  refine obstacle?_eq_none_iff.2 ⟨⟨_, hbase⟩, fun p hp => ?_⟩
  obtain ⟨names, hresolution, -, hresolve⟩ := (hpaths p hp).exists_isDirect h
  refine ⟨FileTree.hasNull_of_resolveFrom names hresolution, ?_⟩
  -- the root that was resolved is resolved once more, to itself
  rw [relativeTo, hbase]
  show ∃ relative, relativePath files (.absolute base) p = .ok relative
  rw [relativePath, hresolve, FileTree.resolve_of_isDirect hdirect]
  exact ⟨_, rfl⟩

/-! ## Workers -/

namespace Analyzer

/-- The analyzer gives each file this analysis, under its path relative to the root of the run. -/
def AnalyzesEach (analyzer : Analyzer) (files : FileTree) (root : Path) (analysisOf : Path → FileAnalysis) :
    Prop :=
  ∀ p relative, p.hasNull = false → relativeTo files root p = .ok relative →
    analyzer.analyzeFile files p (some relative) = .ok (analysisOf p) ∧ (analysisOf p).path = relative

/-- Under validated rules each file has its analysis. -/
theorem exists_analyzesEach {rules : List Rule} {useSuppressions : Bool} {workers : Int} {analyzer : Analyzer}
    (hanalyzer : ofRules (some rules) useSuppressions workers = .ok analyzer) (files : FileTree) (root : Path) :
    ∃ analysisOf, analyzer.AnalyzesEach files root analysisOf := by
  have hexists : ∀ p, ∃ a, ∀ relative, p.hasNull = false → relativeTo files root p = .ok relative →
      analyzer.analyzeFile files p (some relative) = .ok a ∧ a.path = relative := by
    intro p
    by_cases hp : IsNamed files root p
    · obtain ⟨hnull, relative, hrelative⟩ := hp
      obtain ⟨a, ha⟩ := exists_analyzeFile_eq_ok hanalyzer files hnull relative
      refine ⟨a, fun relative' _ hrelative' => ?_⟩
      obtain rfl := Except.ok.inj (hrelative.symm.trans hrelative')
      exact ha
    · -- such a file has no analysis, and none is asked for
      exact ⟨parseFailed p.text ⟨p.text, .syntaxError none⟩ [],
        fun relative hnull hrelative => absurd ⟨hnull, relative, hrelative⟩ hp⟩
  choose analysisOf hanalysis using hexists
  exact ⟨analysisOf, hanalysis⟩

/-- Several workers do what a single one does: outcomes are attached in the order of the files, and the first
    that has failed ends the run. -/
theorem analyzePooled_eq (analyzer : Analyzer) (files : FileTree) (done : Progress)
    (sources : List (Path × String)) :
    analyzer.analyzePooled files done sources = analyzer.analyzeEach files done sources := by
  unfold analyzePooled
  -- for any progress so far, as the first file adds to it
  induction sources generalizing done with
  | nil => rfl
  | cons source rest ih =>
    rw [List.map_cons, aggregate, analyzeEach]
    simp only [ih]

/-- An analysis is attached to a builder that holds a run. -/
private theorem Progress.exists_add_eq_ok {done : Progress} {run : List Insertion} (h : done.builder.Holds run)
    (a : FileAnalysis) :
    ∃ b log, done.add a = .ok ⟨b, done.failures ++ a.failures, log⟩ ∧
      done.builder.insert (.file a.results) = .ok b ∧ b.Holds (run ++ [.file a.results]) := by
  obtain ⟨b, hinsert, hholds⟩ := h.insert (.file a.results)
  have hadd : done.builder.addFile ⟨a.path, a.violations⟩ = .ok b := hinsert
  refine ⟨b, done.log ++ a.log ++ [Builder.addFileLog a.results], ?_, hinsert, hholds⟩
  simp only [Progress.add, hadd, bind, Except.bind, pure, Except.pure]
  rfl

/-- Analyses are attached one after another, and their failures are collected. -/
theorem aggregate_eq_ok {done : Progress} {run : List Insertion} (h : done.builder.Holds run)
    (analyses : List FileAnalysis) :
    ∃ b log, aggregate done (analyses.map .ok) = .ok ⟨b, done.failures ++ analyses.flatMap (·.failures), log⟩ ∧
      done.builder.insertAll (analyses.map fun a => .file a.results) = .ok b := by
  induction analyses generalizing done run with
  | nil => exact ⟨done.builder, done.log, by rw [List.flatMap_nil, List.append_nil]; rfl, rfl⟩
  | cons a rest ih =>
    obtain ⟨b, log, hadd, hinsert, hholds⟩ := Progress.exists_add_eq_ok h a
    -- the builder holds what it held and the new file
    have hholds' : (Progress.mk b (done.failures ++ a.failures) log).builder.Holds _ := hholds
    obtain ⟨b', log', hrest, hinserts⟩ := ih hholds'
    refine ⟨b', log', ?_, ?_⟩
    · rw [List.flatMap_cons, ← List.append_assoc, ← hrest, List.map_cons, aggregate]
      simp only [hadd, bind, Except.bind]
    · rw [List.map_cons, Builder.insertAll, hinsert]
      exact hinserts

/-- If outcomes fail in one way only and one of them does, this is how the run ends. -/
theorem aggregate_eq_error {done : Progress} {run : List Insertion} (h : done.builder.Holds run)
    {outcomes : List (Except Error FileAnalysis)} {e : Error}
    (houtcomes : ∀ outcome ∈ outcomes, (∃ a, outcome = .ok a) ∨ outcome = .error e)
    (hmem : .error e ∈ outcomes) : aggregate done outcomes = .error e := by
  induction outcomes generalizing done run with
  | nil => cases hmem
  | cons outcome rest ih =>
    obtain ⟨hfirst, hothers⟩ := List.forall_mem_cons.1 houtcomes
    rcases hfirst with ⟨a, rfl⟩ | rfl
    · -- an analysis is inserted, which never fails, and the error is further on
      obtain ⟨b, log, hadd, -, hholds⟩ := Progress.exists_add_eq_ok h a
      rw [aggregate]
      simp only [hadd, bind, Except.bind]
      exact ih hholds hothers ((List.mem_cons.1 hmem).resolve_left nofun)
    · rfl

end Analyzer

/-! ## The run over a list of files -/

/-- The run is put together from the analyses: it has as many files as there are analyses, one directory for
    each path, and each directory lists and counts the results of those analyses whose path lies directly in
    it, in their order. Every analysis has its directory. The failures are those of the analyses, in their
    order. -/
structure Run.Assembles (run : Run) (analyses : List FileAnalysis) : Prop where
  length_allFiles : run.results.allFiles.length = analyses.length
  nodup_paths : (run.results.directories.map (·.path)).Nodup
  exists_path : ∀ d ∈ run.results.directories, ∃ path, d.path = some path
  parent_mem : ∀ a ∈ analyses, ∃ d ∈ run.results.directories, d.path = some (parentPath a.path)
  files : ∀ d ∈ run.results.directories, ∀ path, d.path = some path →
    d.files = (analyses.filter (parentPath ·.path == path)).map (·.results)
  fileCount : ∀ d ∈ run.results.directories, ∀ path, d.path = some path →
    d.fileCount = (analyses.filter (parentPath ·.path == path)).length
  failures : run.failures = analyses.flatMap (·.failures)

/-- The tree of a run of insertions, put together with the failures, assembles the analyses that were
    inserted. -/
private theorem Run.assembles_of_insertAll {analyses : List FileAnalysis} {b : Builder} {run : Run}
    (hrun : Builder.empty.insertAll (analyses.map fun a => .file a.results) = .ok b)
    (htree : run.results = b.finalize.root) (hfailures : run.failures = analyses.flatMap (·.failures)) :
    run.Assembles analyses := by
  have hinserted : (analyses.map fun a => Insertion.file a.results) =
      (analyses.map (·.results)).map .file := by
    rw [List.map_map]
    rfl
  rw [hinserted] at hrun
  have hholds := Builder.holds_of_insertAll hrun
  -- what is known of the tree of any run of insertions
  obtain ⟨hplaced, hpaths, hfiles⟩ := hholds.tree (.inr htree)
  have hlists := Builder.listsInOrder_insertAll hrun (.inr htree)
  rw [Builder.files_map_file] at hfiles hlists
  have hlisted : ∀ d ∈ run.results.directories, ∀ path, d.path = some path →
      d.files = (analyses.filter (parentPath ·.path == path)).map (·.results) := by
    intro d hd path hpath
    have hfiles : d.files = Directory.filesIn path (analyses.map (·.results)) :=
      hlists d.entry (List.mem_map_of_mem hd) path hpath
    rw [hfiles, Directory.filesIn, List.filter_map]
    rfl
  constructor
  case length_allFiles => rw [hfiles.length_eq, List.length_map]
  case nodup_paths =>
    rw [Directory.map_path_directories]
    exact hplaced.nodup_paths
  case exists_path => exact fun d hd => hplaced.exists_path hd
  case parent_mem =>
    intro a ha
    -- the directory of a file is asked for by its insertion
    have hasks : Insertion.AsksFor ((analyses.map (·.results)).map .file) (parentPath a.path) := by
      refine .inr (.inr ⟨.file a.results, ?_, mem_ancestors.2 (.inl rfl)⟩)
      exact List.mem_map_of_mem (List.mem_map_of_mem ha)
    rw [← hpaths, ← Directory.map_path_directories, List.mem_map] at hasks
    exact hasks
  case files => exact hlisted
  case fileCount =>
    intro d hd path hpath
    rw [hplaced.fileCount_eq hd, hlisted d hd path hpath, List.length_map]
  case failures => exact hfailures

/-- The files of the run are the results of the analyses. -/
theorem Run.Assembles.mem_allFiles_iff {run : Run} {analyses : List FileAnalysis}
    (h : run.Assembles analyses) {f : FileResults} :
    f ∈ run.results.allFiles ↔ ∃ a ∈ analyses, a.results = f := by
  rw [Directory.allFiles, List.mem_flatMap]
  constructor
  · -- what a directory lists are results of analyses
    rintro ⟨d, hd, hf⟩
    obtain ⟨path, hpath⟩ := h.exists_path d hd
    rw [h.files d hd path hpath, List.mem_map] at hf
    obtain ⟨a, ha, rfl⟩ := hf
    exact ⟨a, (List.mem_filter.1 ha).1, rfl⟩
  · -- the results of an analysis are listed in the directory of their path
    rintro ⟨a, ha, rfl⟩
    obtain ⟨d, hd, hpath⟩ := h.parent_mem a ha
    refine ⟨d, hd, ?_⟩
    rw [h.files d hd _ hpath]
    exact List.mem_map_of_mem (List.mem_filter.2 ⟨ha, by simp⟩)

namespace Analyzer

/-- Whatever the number of workers, the outcomes of the files are attached one after another. -/
private theorem analyzeAll_eq (analyzer : Analyzer) (files : FileTree) (log : List LogEntry)
    (sources : List (Path × String)) :
    analyzer.analyzeAll files log sources =
      (aggregate ⟨.empty, [], log⟩ (sources.map fun (p, path) => analyzer.analyzeFile files p (some path))).map
        fun done => ⟨done.builder.finalize.root, done.failures, done.log ++ [done.builder.finalizeLog]⟩ := by
  rw [analyzeAll, ← analyzePooled_eq, ite_self, analyzePooled]
  cases aggregate ⟨.empty, [], log⟩ (sources.map fun (p, path) => analyzer.analyzeFile files p (some path)) <;> rfl

/-- A run is what is made of its files once their relative paths are known. -/
private theorem analyze_eq {files : FileTree} {root base : Path} {paths : List Path} (analyzer : Analyzer)
    (hbase : files.resolve root = .ok base) :
    ∃ opening : List (Path × String) → List LogEntry, analyzer.analyze files (some root) (some paths) =
      (do
        let sources ← (Discovery.relativePaths files base paths).mapError Error.badPath
        analyzer.analyzeAll files (opening sources) sources) := by
  rw [analyze, hbase]
  exact ⟨_, rfl⟩

/-- If nothing stands in the way, the run exists and is put together from the analyses of its files. -/
theorem exists_analyze_eq_ok {analyzer : Analyzer} {files : FileTree} {root : Path}
    {analysisOf : Path → FileAnalysis} (h : analyzer.AnalyzesEach files root analysisOf) {paths : List Path}
    (hclear : obstacle? files root paths = none) :
    ∃ run, analyzer.analyze files (some root) (some paths) = .ok run ∧
      run.Assembles (paths.map analysisOf) := by
  obtain ⟨⟨base, hbase⟩, hpaths⟩ := obstacle?_eq_none_iff.1 hclear
  -- every file has the path of its analysis
  have hsources : Discovery.relativePaths files base paths =
      .ok (paths.map fun p => (p, (analysisOf p).path)) := by
    refine relativePaths_eq_ok fun p hp => ?_
    obtain ⟨hnull, relative, hrelative⟩ := hpaths p hp
    rw [(h p relative hnull hrelative).2, ← relativeTo_eq hbase, hrelative]
  -- every outcome is the analysis of its file
  have houtcomes : ((paths.map fun p => (p, (analysisOf p).path)).map
      fun (p, path) => analyzer.analyzeFile files p (some path)) = (paths.map analysisOf).map .ok := by
    rw [List.map_map, List.map_map]
    refine List.map_congr_left fun p hp => ?_
    obtain ⟨hnull, relative, hrelative⟩ := hpaths p hp
    obtain ⟨hanalysis, hpath⟩ := h p relative hnull hrelative
    show analyzer.analyzeFile files p (some (analysisOf p).path) = _
    rw [hpath, hanalysis]
    rfl
  obtain ⟨opening, hanalyze⟩ := analyze_eq analyzer hbase
  have hempty : (Progress.mk .empty [] (opening (paths.map fun p => (p, (analysisOf p).path)))).builder.Holds [] :=
    Builder.holds_empty
  obtain ⟨b, log, hattached, hinserted⟩ := aggregate_eq_ok hempty (paths.map analysisOf)
  rw [hanalyze, hsources]
  show ∃ run, analyzer.analyzeAll files (opening _) _ = .ok run ∧ _
  rw [analyzeAll_eq, houtcomes, hattached]
  exact ⟨_, rfl, Run.assembles_of_insertAll hinserted rfl (List.nil_append _)⟩

/-- If something stands in the way, this is how the run ends. -/
theorem analyze_eq_error {rules : List Rule} {useSuppressions : Bool} {workers : Int} {analyzer : Analyzer}
    (hanalyzer : ofRules (some rules) useSuppressions workers = .ok analyzer) {files : FileTree} {root : Path}
    {paths : List Path} {fault : PathFault} (hfault : obstacle? files root paths = some fault) :
    analyzer.analyze files (some root) (some paths) = .error (.badPath fault) := by
  cases hbase : files.resolve root with
  | error e =>
    -- the root comes first
    obtain rfl : e = fault := by simpa [obstacle?, hbase, faultOf] using hfault
    rw [analyze, hbase]
    rfl
  | ok base =>
    obtain ⟨opening, hanalyze⟩ := analyze_eq analyzer hbase
    rw [hanalyze]
    rw [obstacle?, hbase, faultOf, Option.none_or] at hfault
    simp only [relativeTo_eq hbase] at hfault
    rcases Option.or_eq_some_iff.1 hfault with hrelative | ⟨hnone, hnull⟩
    · -- the first file without a relative path ends the run before any file is read
      obtain ⟨before, p, after, hsplit, hp, hbefore⟩ := List.findSome?_eq_some_iff.1 hrelative
      have hsources : Discovery.relativePaths files base paths = .error fault := by
        refine mapM_eq_error_iff.2 ⟨before, p, after, hsplit, fun q hq => ?_, ?_⟩
        · obtain ⟨relative, hq⟩ := faultOf_eq_none_iff.1 (hbefore q hq)
          rw [hq]
          exact ⟨_, rfl⟩
        · rw [faultOf_eq_some_iff.1 hp]
          rfl
      rw [hsources]
      rfl
    · -- the files that can be read are analysed, and the first that cannot ends the run
      obtain ⟨hany, rfl⟩ : paths.any (·.hasNull) = true ∧ PathFault.nullByte = fault := by
        split at hnull
        · next hany => exact ⟨hany, Option.some.inj hnull⟩
        · cases hnull
      rw [List.findSome?_eq_none_iff] at hnone
      obtain ⟨p, hp, hpnull⟩ := List.any_eq_true.1 hany
      choose! relative hrelative using fun q hq => faultOf_eq_none_iff.1 (hnone q hq)
      rw [relativePaths_eq_ok hrelative]
      show analyzer.analyzeAll files (opening _) _ = _
      rw [analyzeAll_eq, aggregate_eq_error (e := .badPath .nullByte) Builder.holds_empty]
      · rfl
      · intro outcome houtcome
        obtain ⟨⟨q, path⟩, -, rfl⟩ := List.mem_map.1 houtcome
        cases hq : q.hasNull with
        | true => exact .inr (analyzer.analyzeFile_of_hasNull files hq _)
        | false =>
          obtain ⟨a, ha, -⟩ := exists_analyzeFile_eq_ok hanalyzer files hq path
          exact .inl ⟨a, ha⟩
      · rw [List.mem_map]
        exact ⟨_, List.mem_map_of_mem hp, analyzer.analyzeFile_of_hasNull files hpnull _⟩

/-- Under rules that passed validation, for any number of workers, a run over a list of files is put together
    from the analyses that its files have on their own, unless something stands in its way; then it ends with
    just this. Nothing stands in the way if no link leads back to itself. The analyses do not depend on the
    list. -/
theorem analyze_assembles (rules : List Rule) (useSuppressions : Bool) (workers : Int) (analyzer : Analyzer)
    (hanalyzer : ofRules (some rules) useSuppressions workers = .ok analyzer) (files : FileTree) (root : Path) :
    ∃ analysisOf, analyzer.AnalyzesEach files root analysisOf ∧
      (∀ paths, obstacle? files root paths = none →
        ∃ run, analyzer.analyze files (some root) (some paths) = .ok run ∧ run.Assembles (paths.map analysisOf)) ∧
      (∀ paths fault, obstacle? files root paths = some fault →
        analyzer.analyze files (some root) (some paths) = .error (.badPath fault)) ∧
      (files.IsWellFormed → files.Resolves root → ∀ paths, (∀ p ∈ paths, files.Resolves p) →
        obstacle? files root paths = none) := by
  obtain ⟨analysisOf, hanalysis⟩ := exists_analyzesEach hanalyzer files root
  refine ⟨analysisOf, hanalysis, fun paths => exists_analyze_eq_ok hanalysis,
    fun paths fault => analyze_eq_error hanalyzer, fun hwf hroot paths => obstacle?_eq_none_of_resolves hwf hroot⟩

end Analyzer

/-- A directory with a file, one that is no text and one that may not be read, and a file beside the
    directory that is reached through a link too. -/
def scatteredFiles : FileTree where
  entries := [.directory "src" [.file "A.java" (.ok ([], blockTree)), .file "B.java" (.ok ([0xFF], blockTree)),
      .file "D.java" (.error .permissionDenied), .link "L.java" "../C.java"],
    .file "C.java" (.ok ([], blockTree))]

/-- Some files, one of them twice, one outside of the directory, and one that is not there. -/
def scatteredPaths : List Path :=
  [⟨0, ["src", "A.java"]⟩, ⟨0, ["src", "B.java"]⟩, ⟨0, ["src", "A.java"]⟩, ⟨0, ["src", "L.java"]⟩,
    ⟨0, ["src", "D.java"]⟩, ⟨0, ["src", "Missing.java"]⟩]

/-- Nothing stands in the way of a run over these files, the link included. -/
theorem obstacle?_scatteredFiles : obstacle? scatteredFiles ⟨0, ["src"]⟩ scatteredPaths = none := by
  have hwf : scatteredFiles.IsWellFormed := ⟨by decide, FileTree.isDirect_nil⟩
  have hnull : ∀ name ∈ ["src", "A.java", "B.java", "C.java", "D.java", "L.java", "Missing.java"],
      Path.isNullName name = false := by decide
  simp only [List.forall_mem_cons] at hnull
  have htarget : Path.ofString "../C.java" = ⟨0, ["..", "C.java"]⟩ := by cbv
  have hroot : scatteredFiles.Resolves ⟨0, ["src"]⟩ :=
    ⟨_, FileTree.resolveFrom_of_isDirect (FileTree.isDirect_of_below? hwf.entries rfl) _ _⟩
  -- each path is followed by hand; one of them leads through a link
  refine obstacle?_eq_none_of_resolves hwf hroot ?_
  simp [scatteredPaths, FileTree.Resolves, FileTree.resolution, hnull, htarget, FileTree.start, Path.isAbsolute,
    FileTree.resolveFrom, scatteredFiles, FileTree.entriesAt, FileEntry.below?, FileEntry.named?, FileEntry.name,
    FileEntry.linkCountIn, FileEntry.linkCount]

/-- A run over six paths has six files, though one was asked for twice and three could not be read or
    parsed. -/
theorem analyze_assembles_scatteredFiles :
    ∃ analyzer analysisOf run,
      Analyzer.ofRules (some (failingRule :: .duplicateImport :: idleRules)) true 4 = .ok analyzer ∧
      analyzer.AnalyzesEach scatteredFiles ⟨0, ["src"]⟩ analysisOf ∧
      analyzer.analyze scatteredFiles (some ⟨0, ["src"]⟩) (some scatteredPaths) = .ok run ∧
      run.Assembles (scatteredPaths.map analysisOf) ∧ run.results.allFiles.length = 6 := by
  obtain ⟨analysisOf, heach, hruns, -, -⟩ := Analyzer.analyze_assembles
    (failingRule :: .duplicateImport :: idleRules) true 4 _ rfl scatteredFiles ⟨0, ["src"]⟩
  obtain ⟨run, hanalyze, hrun⟩ := hruns scatteredPaths obstacle?_scatteredFiles
  exact ⟨_, analysisOf, run, rfl, heach, hanalyze, hrun, hrun.length_allFiles⟩

/-! ## A link that leads back to itself -/

/-- A file that is a link to itself. -/
def selfLinked : FileTree where
  entries := [.link "a.java" "a.java"]

namespace FileTree

/-- However many links are followed, there is one more. -/
theorem lookupFrom_selfLinked (links : Nat) :
    selfLinked.lookupFrom links [] ["a.java"] = .error .tooManyLinks := by
  have htarget : Path.ofString "a.java" = ⟨0, ["a.java"]⟩ := by cbv
  -- with no link left the search gives up, and else the target is where it started
  induction links with
  | zero => simp [lookupFrom, selfLinked, entriesAt, FileEntry.below?, FileEntry.named?, FileEntry.name]
  | succ links ih =>
    rw [lookupFrom]
    simp only [selfLinked, entriesAt, FileEntry.below?, FileEntry.named?, FileEntry.name] at ih ⊢
    simp [htarget, Path.isAbsolute, ih]

/-- A link to itself cannot be resolved. -/
private theorem resolve_selfLinked :
    selfLinked.resolve ⟨0, ["a.java"]⟩ = .error (.linkLoop "/a.java") := by
  have htarget : Path.ofString "a.java" = ⟨0, ["a.java"]⟩ := by cbv
  have hnull : Path.isNullName "a.java" = false := by decide
  have hresolution : selfLinked.resolution ⟨0, ["a.java"]⟩ = .ok (["a.java"], false) := by
    simp [resolution, htarget, hnull, start, Path.isAbsolute, resolveFrom, selfLinked, entriesAt,
      FileEntry.below?, FileEntry.named?, FileEntry.name, FileEntry.linkCountIn, FileEntry.linkCount]
  -- the walk goes no further than the link, and so it names the link itself
  have hreal : selfLinked.realPath ⟨0, ["a.java"]⟩ = .ok (.absolute ["a.java"]) := by
    rw [realPath, hresolution]
    rfl
  have hlookup : selfLinked.lookup (.absolute ["a.java"]) = .error .tooManyLinks :=
    congrArg (Except.map Prod.fst) (lookupFrom_selfLinked maxLinks)
  have hclear : (Path.absolute ["a.java"]).hasNull = false := by decide
  rw [resolve, hreal]
  simp only [bind, Except.bind, hclear, hlookup]
  rfl

end FileTree

/-- The file has no relative path, so the run never comes to reading it. -/
theorem obstacle?_selfLinked :
    obstacle? selfLinked ⟨0, []⟩ [⟨0, ["a.java"]⟩] = some (.linkLoop "/a.java") := by
  have hroot : selfLinked.resolve ⟨0, []⟩ = .ok (.absolute []) :=
    FileTree.resolve_of_resolution FileTree.isDirect_nil
      (FileTree.resolveFrom_of_isDirect FileTree.isDirect_nil _ _)
  simp [obstacle?, relativeTo, hroot, relativePath, FileTree.resolve_selfLinked, faultOf, bind, Except.bind]

/-- A file that cannot be read ends the whole run if it is a link to itself. -/
theorem analyze_selfLinked :
    ∃ analyzer, Analyzer.ofRules (some []) true 1 = .ok analyzer ∧
      analyzer.analyze selfLinked (some ⟨0, []⟩) (some [⟨0, ["a.java"]⟩]) =
        .error (.badPath (.linkLoop "/a.java")) := by
  have hanalyzer : Analyzer.ofRules (some []) true 1 = .ok ⟨[], true, 1⟩ := rfl
  exact ⟨_, hanalyzer, Analyzer.analyze_eq_error hanalyzer obstacle?_selfLinked⟩

end JavaLint
