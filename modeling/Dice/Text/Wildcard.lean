/-!
# Dice.Text.Wildcard

Names described by a pattern.

* `Wildcard` : characters, places for one character, and places for any number of them;
* `Wildcard.ofChars` : a pattern read from text, in which `*`, `?` and sets in brackets have their
  meanings;
* `Wildcard.holds` : whether a name is described.
-/

namespace Dice.Text

/-- Members of a set are ranges of code points, both ends included. -/
inductive Wildcard.Item where
  | char (c : Char)
  | one
  | many
  | set (negated : Bool) (ranges : List (Char × Char))
  deriving DecidableEq

abbrev Wildcard : Type :=
  List Wildcard.Item

namespace Wildcard

/-! ## Reading -/

/-- The characters between the brackets. A bracket that closes the set does so only after its first
character, not counting the mark of negation; a set that is not closed is none. -/
def setBody? (cs : List Char) : Option (List Char) :=
  let mark := if cs.head? == some '!' then ['!'] else []
  let afterMark := cs.drop mark.length
  let first := if afterMark.head? == some ']' then [']'] else []
  let rest := afterMark.drop first.length
  let inner := rest.takeWhile (· != ']')
  if inner.length = rest.length then none else some (mark ++ first ++ inner)

/-- A minus between two characters makes a range of them; at either end it stands for itself. -/
def ranges : List Char → List (Char × Char)
  | low :: '-' :: high :: cs => (low, high) :: ranges cs
  | c :: cs => (c, c) :: ranges cs
  | [] => []

/-- A mark of negation also counts where only ranges without members stand before it. -/
def bareSet : List (Char × Char) → Item
  | ('!', '!') :: ranges => .set true ranges
  | ('!', high) :: ranges => .set true (('-', '-') :: (high, high) :: ranges)
  | ranges => .set false ranges

/-- Ranges whose ends are in the wrong order have no members and are left out. -/
def setOf (body : List Char) : Item :=
  let members (cs : List Char) := (ranges cs).filter fun range => range.1 ≤ range.2
  match body with
  | '!' :: cs => .set true (members cs)
  | cs => bareSet (members cs)

/-- The number counts the characters of a set that are still to be passed over. -/
def itemsFrom : Nat → List Char → Wildcard
  | _, [] => []
  | skipped + 1, _ :: cs => itemsFrom skipped cs
  | 0, c :: cs =>
    if c = '*' then .many :: itemsFrom 0 cs
    else if c = '?' then .one :: itemsFrom 0 cs
    else if c = '[' then
      match setBody? cs with
      | some body => setOf body :: itemsFrom (body.length + 1) cs
      | none => .char c :: itemsFrom 0 cs
    else .char c :: itemsFrom 0 cs

def ofChars (cs : List Char) : Wildcard :=
  itemsFrom 0 cs

/-! ## Matching -/

def Item.holds (c : Char) : Item → Bool
  | .char d => c == d
  | .one | .many => true
  | .set negated ranges =>
    negated != ranges.any fun range => range.1 ≤ c && c ≤ range.2

/-- The ends of a text, from the whole of it to the empty one. -/
def ends : List Char → List (List Char)
  | [] => [[]]
  | c :: cs => (c :: cs) :: ends cs

def holds : Wildcard → List Char → Bool
  | [], cs => cs.isEmpty
  | .many :: items, cs => (ends cs).any (holds items)
  | _ :: _, [] => false
  | item :: items, c :: cs => item.holds c && holds items cs

end Wildcard

/-- Whether a name is described by a pattern. -/
def matchesPattern (pattern name : String) : Bool :=
  (Wildcard.ofChars pattern.toList).holds name.toList

end Dice.Text
