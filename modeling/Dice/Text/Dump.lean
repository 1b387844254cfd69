/-!
# Dice.Text.Dump

The shapes in which values are written out in full, for messages and logs.

* `commaSeparated` : parts with a comma and a space between them;
* `record` : a class with its named fields;
* `tuple`, `list` : sequences of values.
-/

namespace Dice.Text

def commaSeparated (parts : List String) : String :=
  ", ".intercalate parts

def record (name : String) (fields : List (String × String)) : String :=
  name ++ "(" ++ commaSeparated (fields.map fun field => field.1 ++ "=" ++ field.2) ++ ")"

/-- A tuple of one part keeps a comma, which tells it from a value in brackets. -/
def tuple : List String → String
  | [part] => "(" ++ part ++ ",)"
  | parts => "(" ++ commaSeparated parts ++ ")"

def list (parts : List String) : String :=
  "[" ++ commaSeparated parts ++ "]"

def truth : Bool → String
  | true => "True"
  | false => "False"

end Dice.Text
