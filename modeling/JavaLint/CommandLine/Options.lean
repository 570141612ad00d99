import JavaLint.Decimal.Numeral
import JavaLint.Rule.Basic
import JavaLint.Text.Blank
import JavaLint.Text.Split

/-!
# Options of the command line

Options and the target may come in any order. A long option takes its value after an equals sign or from
the next argument; a short one from the rest of its argument or from the next one, and several short
options may be written together. After `--` everything is the target.
-/

namespace JavaLint.CommandLine

/-- The options of the command. -/
inductive OptionName where
  | maxPriority
  | title
  | workers
  | rule
  | assignment
  | verbose
  deriving DecidableEq, Repr

namespace OptionName

/-- The option with the given long name. -/
def ofLong? : String → Option OptionName
  | "--max-priority" => some .maxPriority
  | "--title" => some .title
  | "--workers" => some .workers
  | "--rule" => some .rule
  | "--set" => some .assignment
  | "--verbose" => some .verbose
  | _ => none

/-- The option with the given letter. -/
def ofLetter? : Char → Option OptionName
  | 'p' => some .maxPriority
  | 'w' => some .workers
  | 'r' => some .rule
  | 'v' => some .verbose
  | _ => none

/-- The option has a value. -/
def takesValue : OptionName → Bool
  | .verbose => false
  | _ => true

end OptionName

/-- Arguments as they were read: the values of the options in order, and everything else. -/
structure Arguments where
  values : List (OptionName × String) := []
  rest : List String := []
  deriving Repr

/-- What one argument says: values of options, and an option that takes its value from the next argument. -/
structure Reading where
  values : List (OptionName × String)
  pending? : Option OptionName
  deriving Repr

/-- Reads short options written together. -/
def readLetters? : List Char → Option Reading
  | [] => some ⟨[], none⟩
  | c :: letters =>
    match OptionName.ofLetter? c with
    | none => none
    | some name =>
      if name.takesValue then
        if letters.isEmpty then some ⟨[], some name⟩
        else some ⟨[(name, String.ofList letters)], none⟩
      else
        (readLetters? letters).map fun reading => { reading with values := (name, "") :: reading.values }

/-- Reads an argument that starts with a dash. -/
def readOption? (argument : String) : Option Reading :=
  let (name, value) := match Text.cutFirst? '=' argument with
    | some (name, value) => (name, some value)
    | none => (argument, none)
  match OptionName.ofLong? name with
  | some name =>
    match name.takesValue, value with
    | true, some value => some ⟨[(name, value)], none⟩
    | true, none => some ⟨[], some name⟩
    | false, none => some ⟨[(name, "")], none⟩
    | false, some _ => none
  | none =>
    match argument.toList with
    | '-' :: '-' :: _ => none
    | _ :: letters => readLetters? letters
    | [] => none

/-- The argument is an option: it starts with a dash and is more than a dash. -/
def isOption (argument : String) : Bool :=
  match argument.toList with
  | '-' :: _ :: _ => true
  | _ => false

/-- Reads all arguments. -/
def readArguments? : Arguments → List String → Option Arguments
  | done, [] => some done
  | done, argument :: rest =>
    if argument == "--" then some { done with rest := done.rest ++ rest }
    else if isOption argument then
      match readOption? argument with
      | none => none
      | some ⟨values, none⟩ => readArguments? { done with values := done.values ++ values } rest
      | some ⟨values, some name⟩ =>
        match rest with
        | [] => none
        | value :: rest =>
          readArguments? { done with values := done.values ++ values ++ [(name, value)] } rest
    else readArguments? { done with rest := done.rest ++ [argument] } rest

/-- The options of a run. -/
structure Options where
  target : String
  maxPriority : Int
  title : Option String
  workers : Int
  rules : List String
  assignments : List String
  verbose : Bool
  deriving Repr

namespace Arguments

/-- The values given for an option, in order. -/
def valuesOf (arguments : Arguments) (name : OptionName) : List String :=
  (arguments.values.filter (·.1 == name)).map (·.2)

/-- The last value given for an option. -/
def last? (arguments : Arguments) (name : OptionName) : Option String :=
  (arguments.valuesOf name).getLast?

/-- The integer that the last value of an option stands for, or the given one without a value. -/
def integer? (arguments : Arguments) (name : OptionName) (absent : Int) : Option Int :=
  match arguments.last? name with
  | none => some absent
  | some value => Decimal.readInt? Decimal.scriptDigit? (Text.trimChars value.toList)

end Arguments

/-- Reads the options; nothing if the arguments do not fit: an unknown option, one without its value, a
    value that is not an integer, no target or more than one. -/
def Options.ofArguments? (arguments : List String) : Option Options := do
  let read ← readArguments? {} arguments
  let maxPriority ← read.integer? .maxPriority Rule.defaultMaxPriority
  let workers ← read.integer? .workers 1
  match read.rest with
  | [target] =>
    some {
      target, maxPriority, workers
      title := read.last? .title
      rules := read.valuesOf .rule
      assignments := read.valuesOf .assignment
      verbose := !(read.valuesOf .verbose).isEmpty }
  | _ => none

end JavaLint.CommandLine
