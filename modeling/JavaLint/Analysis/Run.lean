import JavaLint.Analysis
import JavaLint.Discovery
import JavaLint.Results.Builder

/-!
# Analysis of a source tree

A run analyses files and attaches the results of each to a results tree under the path of the file relative
to the root. A single worker takes one file after another; several workers analyse files at the same time,
and the results are attached in the order of the files all the same. Failures of rules are collected;
neither they nor files that cannot be parsed end the run. A path that means nothing does.
-/

namespace JavaLint

/-- The outcome of a run: the results tree, the failures of rules, and the log. -/
structure Run where
  results : Directory
  failures : List RuleFailure
  log : List LogEntry
  deriving Repr

namespace SourceUnit

/-- The unit of a file, under the given path or under its own. -/
def load (files : FileTree) (p : Path) (path : Option String) : Except Error SourceUnit :=
  let shown := path.getD p.text
  match files.read p with
  | .error fault => .error (.badPath fault)
  | .ok (.error fault) => .error (.parse ⟨shown, .unreadable fault⟩)
  | .ok (.ok (source, tree)) => (parse shown source tree).mapError .parse

/-- What loading a file logs. -/
def loadLog (files : FileTree) (p : Path) (path : Option String) : List LogEntry :=
  match files.read p with
  | .error _ => []
  | .ok (.error fault) =>
    [⟨.error, .sourceUnit,
      s!"Failed to read file {p.text}: [Errno {fault.number}] {fault.message}: {Text.quoted p.text}"⟩]
  | .ok (.ok (source, tree)) => parseLog (path.getD p.text) source tree

end SourceUnit

namespace Analyzer

/-- The analysis of a file, under the given path or under its own. -/
def analyzeFile (analyzer : Analyzer) (files : FileTree) (p : Path) (path : Option String) :
    Except Error FileAnalysis :=
  let log := SourceUnit.loadLog files p path
  match SourceUnit.load files p path with
  | .error (.parse failure) => .ok (parseFailed (path.getD p.text) failure log)
  | .error e => .error e
  | .ok u => do
    let analysis ← (analyzer.analyzeUnit u).mapError .config
    return { analysis with log := log ++ analysis.log }

/-- What a list of analyses adds up to: the tree so far, the failures of rules, and the log. -/
structure Progress where
  builder : Builder
  failures : List RuleFailure
  log : List LogEntry

/-- Attaches the results of an analysis, after those that are there. -/
def Progress.add (done : Progress) (analysis : FileAnalysis) : Except Error Progress := do
  let results : FileResults := ⟨analysis.path, analysis.violations⟩
  return ⟨← done.builder.addFile results, done.failures ++ analysis.failures,
    done.log ++ analysis.log ++ [Builder.addFileLog results]⟩

/-- A single worker: each file is analysed when the results of those before it have been attached. -/
def analyzeEach (analyzer : Analyzer) (files : FileTree) :
    Progress → List (Path × String) → Except Error Progress
  | done, [] => .ok done
  | done, (p, path) :: rest => do
    let analysis ← analyzer.analyzeFile files p (some path)
    analyzer.analyzeEach files (← done.add analysis) rest

/-- Attaches analyses in order, up to the first that has failed. -/
def aggregate : Progress → List (Except Error FileAnalysis) → Except Error Progress
  | done, [] => .ok done
  | done, outcome :: rest => do aggregate (← done.add (← outcome)) rest

/-- Several workers: all files are analysed, each on its own, and the outcomes are taken up in the order of
    the files. -/
def analyzePooled (analyzer : Analyzer) (files : FileTree) (done : Progress) (sources : List (Path × String)) :
    Except Error Progress :=
  aggregate done (sources.map fun (p, path) => analyzer.analyzeFile files p (some path))

/-- The run over files whose paths relative to the root are known, after what has been logged. -/
def analyzeAll (analyzer : Analyzer) (files : FileTree) (log : List LogEntry) (sources : List (Path × String)) :
    Except Error Run := do
  let start : Progress := ⟨.empty, [], log⟩
  let done ←
    if analyzer.workers == 1 then analyzer.analyzeEach files start sources
    else analyzer.analyzePooled files start sources
  return ⟨done.builder.finalize.root, done.failures, done.log ++ [done.builder.finalizeLog]⟩

/-- Analyses the given files, or all sources found below the root. The relative paths of all files are
    computed before the first is read. -/
def analyze (analyzer : Analyzer) (files : FileTree) (root : Option Path) (selected : Option (List Path)) :
    Except Error Run :=
  match root with
  | none => .error (.missing .root)
  | some root => do
    let root ← (files.resolve root).mapError .badPath
    let (paths, found) ← match selected with
      | some paths => pure (paths, [])
      | none => Discovery.collect files {} root
    let sources ← (Discovery.relativePaths files root paths).mapError .badPath
    let opening : LogEntry :=
      ⟨.info, .analysis,
        s!"Analyzing {sources.length} file(s) under {root.text} with {analyzer.rules.length} rule(s)"⟩
    analyzer.analyzeAll files (found ++ [opening]) sources

end Analyzer

end JavaLint
