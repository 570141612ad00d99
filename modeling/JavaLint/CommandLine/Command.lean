import JavaLint.Analysis.Run
import JavaLint.CommandLine.Options
import JavaLint.Config.Override
import JavaLint.Report.Document

/-!
# The command

Analyses a file or a directory with the configured rules and prints the report.
-/

namespace JavaLint.CommandLine

/-- What a run printed and logged. -/
structure Output where
  exitCode : Nat
  stdout : String
  stderr : String
  document : Option Document
  log : List LogEntry
  level : LogLevel
  deriving Repr

/-- How a run of the command ended. -/
inductive Outcome where
  /-- The arguments do not fit the options, or the target does not exist. -/
  | refused
  /-- The arguments fit, but ask for something that is not possible. -/
  | misused (message : String)
  /-- The run ended with an error that is no fault of its arguments. -/
  | failed (error : Error)
  | ended (output : Output)

/-- The files to analyse: the root, the sources and what finding them logged, or how the run ends without
    them. -/
def collect (files : FileTree) (target : Path) : Except Outcome (Path × List Path × List LogEntry) :=
  match files.lookup target with
  | .ok (.file _) =>
    if Discovery.isJavaName target.name then .ok (target.parent, [target], [])
    else .error (.misused s!"Target file must have .java extension, got: {target.text}")
  | .ok (.directory _) =>
    match Discovery.collect files {} target with
    | .error error => .error (.failed error)
    | .ok (sources, found) =>
      let warnings : List LogEntry :=
        if sources.isEmpty then
          [⟨.warning, .commandLine, s!"No .java files found under {target.text}"⟩]
        else []
      .ok (target, sources, found ++ warnings)
  | _ => .error (.misused s!"Target path is neither a file nor a directory: {target.text}")

/-- Analyses the sources and prints the report. -/
def analyze [Coercion] (files : FileTree) (options : Options) (config : Config) (level : LogLevel) (root : Path)
    (sources : List Path) (found : List LogEntry) : Except Error Output := do
  let analyzer ← Analyzer.ofRules (some config.enabledRules) true config.workers
  let run ← analyzer.analyze files (some root) (some sources)
  let report ← Report.build (some run.results) config.maxPriority options.title (some config.descriptions)
  return {
    exitCode := 0
    stdout := ""
    stderr := String.join (run.failures.map fun failure => s!"warning: {failure.message}\n")
    document := some report.document
    log := (found ++ run.log).filter fun entry => level.rank ≤ entry.level.rank
    level }

/-- Runs the command with the given rules on a file tree. -/
def run [Coercion] (catalog : Catalog) (files : FileTree) (arguments : List String) : Outcome :=
  match Options.ofArguments? arguments with
  | none => .refused
  | some options =>
    match files.realPath (Path.ofString options.target) with
    | .error fault => .failed (.badPath fault)
    | .ok target =>
      if !(files.contains target && files.mayRead target) then .refused
      else
        let level : LogLevel := if options.verbose then .debug else .warning
        match Config.build catalog options.maxPriority options.workers options.rules options.assignments with
        | .error error => .misused error.message
        | .ok config =>
          if config.enabledRules.isEmpty then
            .ended ⟨1, "No rules are enabled in the current configuration.\n", "", none, [], level⟩
          else
            match collect files target with
            | .error outcome => outcome
            | .ok (root, sources, found) =>
              match analyze files options config level root sources found with
              | .error error => .failed error
              | .ok output => .ended output

end JavaLint.CommandLine
