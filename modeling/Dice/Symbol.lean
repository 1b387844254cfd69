import Dice.Text.Quoted

/-!
# Dice.Symbol

Signs and comparisons, and the places of a tree where one is expected.

* `Sign`, `Relation` : the symbols of the notation;
* `Stranger`, `Symbol` : what stands where a symbol is expected;
* `compare` : two numbers compared as a symbol says.
-/

namespace Dice

/-- The sign of a term or of a constant added to a roll. -/
inductive Sign where
  | plus
  | minus
  deriving DecidableEq

/-- A strict comparison with a number. -/
inductive Relation where
  | equal
  | greater
  | less
  deriving DecidableEq

/-- What stands in the place of something else: nothing, a text, or another value, of which only
its class and its look in messages are known, and whether the numbers in it are short enough for
it to have one. -/
inductive Stranger where
  | absent
  | text (s : String)
  | value (className dump : String) (writable : Bool)
  deriving DecidableEq

inductive Symbol (α : Type) where
  | known (a : α)
  | unknown (s : Stranger)
  deriving DecidableEq

namespace Stranger

def dump : Stranger → String
  | .absent => "None"
  | .text s => Text.quoted s
  | .value _ dump _ => dump

def writable : Stranger → Bool
  | .absent | .text _ => true
  | .value _ _ writable => writable

/-- A text stands for itself; everything else is written out. -/
def display : Stranger → String
  | .text s => s
  | s => s.dump

def className : Stranger → String
  | .absent => "NoneType"
  | .text _ => "str"
  | .value className _ _ => className

end Stranger

namespace Sign

def all : List Sign := [.plus, .minus]

def char : Sign → Char
  | .plus => '+'
  | .minus => '-'

def factor : Sign → Int
  | .plus => 1
  | .minus => -1

def apply (s : Sign) (n : Int) : Int :=
  s.factor * n

def dump : Sign → String
  | .plus => "<ArithmeticOperator.ADD: '+'>"
  | .minus => "<ArithmeticOperator.SUBTRACT: '-'>"

end Sign

namespace Relation

def all : List Relation := [.equal, .greater, .less]

def char : Relation → Char
  | .equal => '='
  | .greater => '>'
  | .less => '<'

def holds : Relation → Int → Int → Bool
  | .equal, left, right => left == right
  | .greater, left, right => right < left
  | .less, left, right => left < right

def dump : Relation → String
  | .equal => "<ComparisonOperator.EQUAL: '='>"
  | .greater => "<ComparisonOperator.GREATER_THAN: '>'>"
  | .less => "<ComparisonOperator.LESS_THAN: '<'>"

end Relation

namespace Symbol

def dump {α : Type} (dumpKnown : α → String) : Symbol α → String
  | .known a => dumpKnown a
  | .unknown s => s.dump

def writable {α : Type} : Symbol α → Bool
  | .known _ => true
  | .unknown s => s.writable

def known? {α : Type} : Symbol α → Option α
  | .known a => some a
  | .unknown _ => none

end Symbol

/-- What stood in the place of a comparison. -/
structure UnknownRelation where
  found : Stranger
  deriving DecidableEq

/-- Only the known comparisons can be evaluated. -/
def compare (symbol : Symbol Relation) (left right : Int) : Except UnknownRelation Bool :=
  match symbol with
  | .known relation => .ok (relation.holds left right)
  | .unknown found => .error ⟨found⟩

end Dice
