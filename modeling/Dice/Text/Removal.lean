/-!
# Dice.Text.Removal

Texts without some of their parts.

* `removed` : a text without any occurrence of a word;
* `padRight` : a text filled up with spaces.
-/

namespace Dice.Text

/-- Occurrences are found from the left and do not overlap. The number counts the characters of an
occurrence that are still to be passed over. -/
def removedFrom (word : List Char) : Nat → List Char → List Char
  | _, [] => []
  | skipped + 1, _ :: cs => removedFrom word skipped cs
  | 0, c :: cs =>
    if word.isPrefixOf (c :: cs) then removedFrom word (word.length - 1) cs
    else c :: removedFrom word 0 cs

def removed (word s : String) : String :=
  String.ofList (removedFrom word.toList 0 s.toList)

def padRight (width : Nat) (s : String) : String :=
  s ++ String.ofList (List.replicate (width - s.length) ' ')

end Dice.Text
