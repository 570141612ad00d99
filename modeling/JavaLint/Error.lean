import JavaLint.Setting.Coercion
import JavaLint.Setting.Printer
import JavaLint.Text.Utf8

/-!
# Errors

Everything that can go wrong, as a cause with the data it concerns, and the wording of each cause.
-/

namespace JavaLint

/-- Why the system refused to reach or to read an entry of the file tree: the number of the fault, and the
    text that names it. -/
structure AccessFault where
  number : Nat
  message : String
  deriving DecidableEq, Repr

namespace AccessFault

/-- A name on the way does not exist. -/
def notFound : AccessFault := ⟨2, "No such file or directory"⟩

/-- The file may not be read. -/
def permissionDenied : AccessFault := ⟨13, "Permission denied"⟩

/-- Something on the way is no directory. -/
def notDirectory : AccessFault := ⟨20, "Not a directory"⟩

/-- A directory cannot be read like a file. -/
def isDirectory : AccessFault := ⟨21, "Is a directory"⟩

/-- More links had to be followed than are followed at once. -/
def tooManyLinks : AccessFault := ⟨40, "Too many levels of symbolic links"⟩

end AccessFault

/-- Why a path means nothing. Unlike an access fault this is not taken as a property of the file. -/
inductive PathFault where
  | nullByte
  | linkLoop (path : String)
  deriving DecidableEq, Repr

/-- The text that names the fault of a path. -/
def PathFault.message : PathFault → String
  | .nullByte => "embedded null byte"
  | .linkLoop path => s!"Symlink loop from {Text.quoted path}"

/-- Why a source has no syntax tree. A syntax error knows the line it was found near. -/
inductive ParseCause where
  | unreadable (fault : AccessFault)
  | notUtf8 (fault : Utf8.Fault)
  | syntaxError (line : Option Nat)
  deriving DecidableEq, Repr

/-- The reason that is given for a failed parse. -/
def ParseCause.reason : ParseCause → String
  | .unreadable fault => s!"unreadable ({fault.message})"
  | .notUtf8 fault => s!"source is not valid UTF-8 ({fault.message})"
  | .syntaxError _ => "syntax error"

/-- The line that a failed parse points at. -/
def ParseCause.line? : ParseCause → Option Nat
  | .syntaxError line => line
  | _ => none

/-- A source that could not be parsed, under the path it is shown with. -/
structure ParseFailure where
  path : String
  cause : ParseCause
  deriving DecidableEq, Repr

/-- The message of a failed parse. -/
def ParseFailure.message (failure : ParseFailure) : String :=
  s!"Could not parse {failure.path}: {failure.cause.reason}"

/-- A field of a record and what is wrong with the value given for it. -/
structure InvalidField where
  field : String
  fault : FieldFault
  deriving DecidableEq, Repr

/-- The records whose fields are coerced. -/
inductive RecordKind where
  | ruleProperties
  | violation
  | violationRow
  | ruleDescriptionRow
  deriving DecidableEq, Repr

/-- The name of a record in messages. -/
def RecordKind.label : RecordKind → String
  | .ruleProperties => "RuleProperties"
  | .violation => "Violation"
  | .violationRow => "ViolationRow"
  | .ruleDescriptionRow => "RuleDescriptionRow"

/-- How many fields of a record are invalid, in words. -/
def invalidFieldsMessage (record : RecordKind) (fields : List InvalidField) : String :=
  let noun := if fields.length == 1 then "error" else "errors"
  s!"{fields.length} validation {noun} for {record.label}"

/-- What is wrong with a configuration. -/
inductive ConfigError where
  | unknownProperty (key rule : String)
  | priorityNotInteger (rule : String) (value : Setting)
  | priorityOutOfRange (rule : String) (value : Int)
  | wildcardNotText (value : Setting)
  | wildcardEmptyEntry (list : String)
  | wildcardBracket (list : String)
  | unknownRule (name : String) (known : List String)
  | duplicateRule (name registered added : String)
  | unknownSelection (names : List String)
  | maxPriorityOutOfRange (value : Int)
  | tooFewWorkers (value : Int)
  | duplicateNames (names : List String)
  | malformedAssignment (text : String)
  | unconfigurableRule (name : String)
  | invalidProperties (rule : String) (fields : List InvalidField)

/-- The message of a configuration error. -/
def ConfigError.message : ConfigError → String
  | .unknownProperty key rule => s!"Unknown property {Text.quoted key} for rule {rule}"
  | .priorityNotInteger rule value => s!"Rule {rule}: priority must be an integer, got {value.quoted}"
  | .priorityOutOfRange rule value => s!"Rule {rule}: priority {value} is outside 1..4"
  | .wildcardNotText value => s!"Wildcard pattern must be a string, got {value.quoted}"
  | .wildcardEmptyEntry list => s!"Malformed wildcard pattern {Text.quoted list}: empty entry"
  | .wildcardBracket list =>
    s!"Malformed wildcard pattern {Text.quoted list}: only '*' and '?' wildcards are supported"
  | .unknownRule name known =>
    s!"Unknown rule {Text.quoted name}; known rules: " ++ ", ".intercalate known
  | .duplicateRule name registered added =>
    s!"Duplicate rule name {Text.quoted name}: {registered} and {added}"
  | .unknownSelection names => "Unknown rule(s): " ++ ", ".intercalate names
  | .maxPriorityOutOfRange value => s!"max_priority must be within 1..4, got {value}"
  | .tooFewWorkers value => s!"workers must be at least 1, got {value}"
  | .duplicateNames names => "Duplicate rule name(s): " ++ ", ".intercalate names
  | .malformedAssignment text => s!"Expected RuleName.property=value, got {Text.quoted text}"
  | .unconfigurableRule name => s!"Cannot configure unknown rule {Text.quoted name}"
  | .invalidProperties rule fields =>
    s!"Invalid properties for rule {rule}: " ++ invalidFieldsMessage .ruleProperties fields

/-- The inputs that an operation cannot do without. -/
inductive RequiredInput where
  | rules
  | root
  | results
  | config
  deriving DecidableEq, Repr

/-- The name of a required input in messages. -/
def RequiredInput.label : RequiredInput → String
  | .rules => "rules"
  | .root => "root"
  | .results => "results"
  | .config => "config"

/-- Everything that an operation of the linter can fail with. -/
inductive Error where
  | config (error : ConfigError)
  | missing (input : RequiredInput)
  | parse (failure : ParseFailure)
  | badPath (fault : PathFault)
  | invalidRecord (record : RecordKind) (fields : List InvalidField)
  | notComparable (priority : Setting)
  | sealedDirectory (path : Option String)
  | finalized
  | rootMissing (root : String)
  | rootNotDirectory (root : String)

/-- The message of an error. -/
def Error.message : Error → String
  | .config error => error.message
  | .missing input => s!"The {input.label} argument must not be None"
  | .parse failure => failure.message
  | .badPath fault => fault.message
  | .invalidRecord record fields => invalidFieldsMessage record fields
  | .notComparable priority => s!"'<=' not supported between instances of '{priority.kindName}' and 'int'"
  | .sealedDirectory path =>
    let shown := match path with
      | some path => Text.quoted path
      | none => Setting.null.quoted
    s!"Results for directory {shown} are finalized and read-only"
  | .finalized => "Cannot add file results after finalize()"
  | .rootMissing root => s!"Root directory does not exist: {root}"
  | .rootNotDirectory root => s!"Root path is not a directory: {root}"

end JavaLint
