/-!
# Dice.Text.Lines

Texts as lines.

* `lines` : the lines of a text, each without the new line that ends it;
* `unlines` : lines put together, with a new line after each.
-/

namespace Dice.Text

def linesOf : List Char → List (List Char)
  | [] => []
  | c :: cs =>
    if c = '\n' then [] :: linesOf cs
    else
      match linesOf cs with
      | [] => [[c]]
      | line :: lines => (c :: line) :: lines

/-- Only a new line ends a line. What stands after the last one is a line if it is not empty. -/
def lines (s : String) : List String :=
  (linesOf s.toList).map String.ofList

def unlines (lines : List String) : String :=
  String.join (lines.map (· ++ "\n"))

end Dice.Text
