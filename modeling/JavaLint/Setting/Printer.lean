import JavaLint.Decimal.Shortest
import JavaLint.Setting.Basic
import JavaLint.Text.Quoted

/-!
# Settings in messages

Messages show a setting in one of two ways. `quoted` puts texts between quotes, `display` shows a text as
it is; they differ on nothing else.
-/

namespace JavaLint.Setting

mutual

/-- The setting with every text in quotes. -/
def quoted : Setting → String
  | .null => "None"
  | .bool value => if value then "True" else "False"
  | .int value => toString value
  | .float value => value.text
  | .text value => Text.quoted value
  | .list items => "[" ++ ", ".intercalate (quotedItems items) ++ "]"
  | .table entries => "\x7b" ++ ", ".intercalate (quotedEntries entries) ++ "\x7d"

/-- The items of a list, each quoted. -/
def quotedItems : List Setting → List String
  | [] => []
  | item :: items => item.quoted :: quotedItems items

/-- The entries of a table, keys and values quoted. -/
def quotedEntries : List (String × Setting) → List String
  | [] => []
  | (key, value) :: entries => (Text.quoted key ++ ": " ++ value.quoted) :: quotedEntries entries

end

/-- The setting as plain text: a text stands for itself. -/
def display : Setting → String
  | .text value => value
  | s => s.quoted

/-- What kind of value the setting is. -/
def kindName : Setting → String
  | .null => "NoneType"
  | .bool _ => "bool"
  | .int _ => "int"
  | .float _ => "float"
  | .text _ => "str"
  | .list _ => "list"
  | .table _ => "dict"

end JavaLint.Setting
