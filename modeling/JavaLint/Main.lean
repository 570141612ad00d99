import JavaLint.CommandLine.Command
import JavaLint.Setting.Lenient
import JavaLint.Snapshot

/-!
# The program

Reads a snapshot of a source tree from standard input and runs the command on it.
-/

namespace JavaLint

/-- The text of a cell. -/
def Cell.text : Cell → String
  | .plain text => text
  | .styled text => text.text

/-- The lines of a block, with bars between the cells of a row. -/
def Block.lines : Block → List String
  | .blank => [""]
  | .panel p => [p.text]
  | .table t =>
    [t.title, " | ".intercalate (t.columns.map (·.header))] ++
      t.rows.map fun row => " | ".intercalate (row.map (·.text))

/-- Reads all lines of a stream, without the line feeds. -/
partial def readLines (stream : IO.FS.Stream) (done : Array String) : IO (Array String) := do
  let line ← stream.getLine
  if line.isEmpty then return done
  readLines stream (done.push (String.ofList (line.toList.filter (· != '\n'))))

end JavaLint

open JavaLint in
/-- Runs the command with the given arguments. A run that is refused or misused ends with code two, one
    that fails with code one. -/
def main (arguments : List String) : IO UInt32 := do
  let lines ← readLines (← IO.getStdin) #[]
  match Snapshot.read lines.toList with
  | .error number =>
    IO.eprintln s!"line {number} of the snapshot is malformed"
    return 2
  | .ok files =>
    match CommandLine.run .shipped files arguments with
    | .refused =>
      IO.eprintln "usage: [--max-priority N] [--title TEXT] [--workers N] [--rule NAME] [--set RULE.KEY=VALUE] TARGET"
      return 2
    | .misused message =>
      IO.eprintln message
      return 2
    | .failed error =>
      IO.eprintln error.message
      return 1
    | .ended output =>
      for entry in output.log do IO.eprintln entry.message
      IO.eprint output.stderr
      IO.print output.stdout
      for block in output.document.getD [] do
        for line in block.lines do IO.println line
      return UInt32.ofNat output.exitCode
