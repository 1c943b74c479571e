import Demitasse.Text.Quoted

/-! Dumps of structured values: named records, named tuples and lists, over atoms that are already
text. A dump has two layouts, one on a single line and one with a line for every field. -/

namespace Demitasse.Text

/-- The shape of a value as it is shown to a reader. -/
inductive Dump where
  /-- a text shown as it is -/
  | atom (text : String)
  /-- a name with labelled fields -/
  | record (name : String) (fields : List (String × Dump))
  /-- a name with unlabelled parts -/
  | tuple (name : String) (parts : List Dump)
  /-- a sequence -/
  | list (items : List Dump)

namespace Dump

/-- A number in decimal. -/
def number (n : Nat) : Dump :=
  .atom (toString n)

/-- A text in quotes. -/
def string (s : String) : Dump :=
  .atom (quoted s)

/-- A value that may be missing. -/
def option : Option Dump → Dump
  | none => .atom "None"
  | some d => .tuple "Some" [d]

mutual

/-- The layout on one line: fields and items are separated by a comma and a blank. -/
def compact : Dump → String
  | .atom text => text
  | .record name fields => name ++ " \x7b " ++ compactFields fields ++ " \x7d"
  | .tuple name parts => name ++ "(" ++ compactItems parts ++ ")"
  | .list items => "[" ++ compactItems items ++ "]"

/-- The labelled fields of a record on one line. -/
def compactFields : List (String × Dump) → String
  | [] => ""
  | [(label, d)] => label ++ ": " ++ d.compact
  | (label, d) :: rest => label ++ ": " ++ d.compact ++ ", " ++ compactFields rest

/-- The parts of a tuple or the items of a list on one line. -/
def compactItems : List Dump → String
  | [] => ""
  | [d] => d.compact
  | d :: rest => d.compact ++ ", " ++ compactItems rest

end

/-- Four blanks for every level. -/
def margin (depth : Nat) : String :=
  String.ofList (List.replicate (4 * depth) ' ')

mutual

/-- The layout with a line for every field, part and item; `depth` counts the enclosing values. -/
def indented (depth : Nat) : Dump → String
  | .atom text => text
  | .record name fields =>
    name ++ " \x7b\n" ++ indentedFields (depth + 1) fields ++ margin depth ++ "\x7d"
  | .tuple name parts => name ++ "(\n" ++ indentedItems (depth + 1) parts ++ margin depth ++ ")"
  | .list [] => "[]"
  | .list (d :: rest) => "[\n" ++ indentedItems (depth + 1) (d :: rest) ++ margin depth ++ "]"

/-- The labelled fields of a record, each on lines of its own. -/
def indentedFields (depth : Nat) : List (String × Dump) → String
  | [] => ""
  | (label, d) :: rest =>
    margin depth ++ label ++ ": " ++ indented depth d ++ ",\n" ++ indentedFields depth rest

/-- Parts or items, each on lines of its own. -/
def indentedItems (depth : Nat) : List Dump → String
  | [] => ""
  | d :: rest => margin depth ++ indented depth d ++ ",\n" ++ indentedItems depth rest

end

end Dump

end Demitasse.Text
