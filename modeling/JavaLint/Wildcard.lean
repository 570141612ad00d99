import JavaLint.Error
import JavaLint.Text.Blank
import JavaLint.Text.Split

/-!
# Wildcard lists

A filter is a list of wildcards with commas between them. In a wildcard `*` stands for any run of
characters and `?` for exactly one; every other character stands for itself. Blanks around an entry do
not count, an empty entry is an error, and so are square brackets.
-/

namespace JavaLint

namespace Wildcard

/-- One element of a wildcard. -/
inductive Token where
  | anyRun
  | anyChar
  | literal (c : Char)
  deriving DecidableEq, Repr

/-- The element that a character of a wildcard is. -/
def Token.ofChar (c : Char) : Token :=
  if c == '*' then .anyRun else if c == '?' then .anyChar else .literal c

/-- Some tail of the list, the list itself and the empty list included, satisfies `p`. -/
def anyTail (p : List Char → Bool) : List Char → Bool
  | [] => p []
  | c :: s => p (c :: s) || anyTail p s

/-- The wildcard matches the whole text. -/
def matchesAll : List Token → List Char → Bool
  | [], s => s.isEmpty
  | .anyRun :: tokens, s => anyTail (matchesAll tokens) s
  | .anyChar :: tokens, s =>
    match s with
    | [] => false
    | _ :: s => matchesAll tokens s
  | .literal d :: tokens, s =>
    match s with
    | [] => false
    | c :: s => c == d && matchesAll tokens s

/-- Reads one entry of the list with text `list`. -/
def readEntry (list : String) (entry : String) : Except ConfigError (List Token) :=
  let chars := Text.trimChars entry.toList
  if chars.isEmpty then .error (.wildcardEmptyEntry list)
  else if chars.contains '[' || chars.contains ']' then .error (.wildcardBracket list)
  else .ok (chars.map Token.ofChar)

end Wildcard

/-- A list of wildcards and the text it was read from. -/
structure WildcardList where
  text : String
  entries : List (List Wildcard.Token)
  deriving Repr

namespace WildcardList

/-- Reads a list of wildcards; the first entry that is malformed is the error. -/
def ofString (text : String) : Except ConfigError WildcardList := do
  let entries ← (Text.split ',' text).mapM (Wildcard.readEntry text)
  return ⟨text, entries⟩

/-- Reads a list of wildcards from a setting, which has to be a text. -/
def ofSetting : Setting → Except ConfigError WildcardList
  | .text text => ofString text
  | other => .error (.wildcardNotText other)

/-- Some entry matches the whole text. -/
def isMatch (list : WildcardList) (value : String) : Bool :=
  list.entries.any (Wildcard.matchesAll · value.toList)

/-- Some entry matches one of the texts. -/
def matchesAny (list : WildcardList) (values : List String) : Bool :=
  values.any list.isMatch

/-- How the list is shown. -/
def display (list : WildcardList) : String :=
  s!"WildcardPattern({Text.quoted list.text})"

end WildcardList

end JavaLint
