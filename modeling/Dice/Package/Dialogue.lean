/-!
# Dice.Package.Dialogue

Questions to the user.

* `takeYes` : whether all questions are answered beforehand, and the words without that wish;
* `Dialogue` : the lines that the user types, and all that was printed;
* `Dialogue.ask` : a question and its answer.
-/

namespace Dice.Package

/-- The word that answers all questions with yes. -/
def yesWord : String := "--yes"

/-- Only the first of such words is taken. -/
def takeYes (words : List String) : Bool × List String :=
  (words.contains yesWord, words.erase yesWord)

structure Dialogue where
  assumeYes : Bool
  lines : List String
  printed : String

/-- The user has nothing more to say. -/
inductive AskError where
  | noMoreLines

def AskError.message : AskError → String
  | .noMoreLines => "EOF when reading a line"

namespace Dialogue

def print (d : Dialogue) (text : String) : Dialogue :=
  { d with printed := d.printed ++ text }

/-- A question that is answered beforehand is not printed. -/
def ask (d : Dialogue) (question : String) : Except AskError String × Dialogue :=
  if d.assumeYes then (.ok "yes", d)
  else
    match d.lines with
    | [] => (.error .noMoreLines, d.print question)
    | line :: lines => (.ok line, { d.print question with lines := lines })

end Dialogue

end Dice.Package
