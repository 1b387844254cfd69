/-!
# Dice.Text.ShellWords

A command line as words.

* `shellWords` : the words, without their quotes, or why they cannot be told apart.

Blanks separate words. Single quotes keep everything between them; between double quotes a backslash
takes their meaning from a quote or another backslash, and elsewhere from any character. Quoted
parts join with what stands beside them.
-/

namespace Dice.Text

inductive WordsError where
  | openQuote
  | openEscape
  deriving DecidableEq

def WordsError.message : WordsError → String
  | .openQuote => "No closing quotation"
  | .openEscape => "No escaped character"

/-- Where a character stands. After a backslash it matters whether it stands between double
quotes. -/
inductive Quoting where
  | plain
  | quoted (mark : Char)
  | escaped (inQuotes : Bool)

def isSeparator (c : Char) : Bool :=
  c == ' ' || c == '\t' || c == '\r' || c == '\n'

/-- Words are gathered from the last to the first, and characters as well. A word that has begun may
be empty. -/
def wordsFrom : Quoting → Option (List Char) → List (List Char) → List Char →
    Except WordsError (List (List Char))
  | .plain, none, words, [] => .ok words.reverse
  | .plain, some word, words, [] => .ok (word.reverse :: words).reverse
  | .quoted _, _, _, [] => .error .openQuote
  | .escaped _, _, _, [] => .error .openEscape
  | .plain, begun, words, c :: cs =>
    if isSeparator c then
      match begun with
      | none => wordsFrom .plain none words cs
      | some word => wordsFrom .plain none (word.reverse :: words) cs
    else if c = '\x27' ∨ c = '"' then wordsFrom (.quoted c) (some (begun.getD [])) words cs
    else if c = '\\' then wordsFrom (.escaped false) begun words cs
    else wordsFrom .plain (some (c :: begun.getD [])) words cs
  | .quoted mark, begun, words, c :: cs =>
    if c = mark then wordsFrom .plain begun words cs
    else if c = '\\' ∧ mark = '"' then wordsFrom (.escaped true) begun words cs
    else wordsFrom (.quoted mark) (some (c :: begun.getD [])) words cs
  | .escaped false, begun, words, c :: cs => wordsFrom .plain (some (c :: begun.getD [])) words cs
  | .escaped true, begun, words, c :: cs =>
    let kept := if c = '\\' ∨ c = '"' then [] else ['\\']
    wordsFrom (.quoted '"') (some (c :: (kept ++ begun.getD []))) words cs

def shellWords (s : String) : Except WordsError (List String) :=
  (wordsFrom .plain none [] s.toList).map fun words => words.map String.ofList

end Dice.Text
