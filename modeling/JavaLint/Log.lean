/-!
# Log entries

Operations that report their progress return the entries they would log, in order.
-/

namespace JavaLint

/-- How grave a log entry is. -/
inductive LogLevel where
  | debug
  | info
  | warning
  | error
  deriving DecidableEq, Repr

/-- Severity as a number: graver levels are greater. -/
def LogLevel.rank : LogLevel → Nat
  | .debug => 0
  | .info => 1
  | .warning => 2
  | .error => 3

/-- The part of the linter that an entry comes from. -/
inductive LogOrigin where
  | parsing
  | sourceUnit
  | visiting
  | suppression
  | analysis
  | results
  | discovery
  | commandLine
  deriving DecidableEq, Repr

/-- One entry of the log. -/
structure LogEntry where
  level : LogLevel
  origin : LogOrigin
  message : String
  deriving DecidableEq, Repr

end JavaLint
