import Dice.Text.Dump
import Dice.Text.Numeral

/-!
# Dice.Die

The kinds of dice, and the dice of a trace.

* `DieKind` : dice that can be rolled, and the markers of events that are no dice;
* `Range`, `DieKind.range?` : the faces of the dice that can be rolled;
* `Die` : a die drawn first or drawn again. A die drawn again remembers the kind of die only, so
  drawing again any number of times is drawing again once.
-/

namespace Dice

/-- The marker `constant` stands at a fixed number, `tally` at a count of dice; `general` is no
particular kind. -/
inductive DieKind where
  | sided (sides : Int)
  | percent
  | fudge
  | constant
  | tally
  | general
  deriving DecidableEq

/-- The least and the greatest face of a die. -/
structure Range where
  low : Int
  high : Int
  deriving DecidableEq

inductive Die where
  | fresh (kind : DieKind)
  | redrawn (kind : DieKind)
  deriving DecidableEq

namespace DieKind

def range? : DieKind → Option Range
  | .sided sides => some ⟨1, sides⟩
  | .percent => some ⟨1, 100⟩
  | .fudge => some ⟨-1, 1⟩
  | .constant | .tally | .general => none

def sides? : DieKind → Option Int
  | .sided sides => some sides
  | .percent => some 100
  | .fudge => some 3
  | .constant | .tally | .general => none

def className : DieKind → String
  | .sided _ => "Basic"
  | .percent => "Percent"
  | .fudge => "Fudge"
  | .constant => "ConstantDie"
  | .tally => "SuccessDie"
  | .general => "DieType"

def dump (kind : DieKind) : String :=
  Text.record kind.className <|
    match kind with
    | .sided sides => [("sides", toString sides)]
    | _ => []

def writable : DieKind → Bool
  | .sided sides => Text.writable sides
  | _ => true

/-- The kind as it is written after the letter of a roll. -/
def chars : DieKind → List Char
  | .sided sides => Text.numeral sides
  | .percent => ['%']
  | .fudge => ['F']
  | .constant => ['C']
  | .tally => ['S']
  | .general => (DieKind.dump .general).toList

end DieKind

/-- The integers in `[low, high)` are asked of a source. -/
structure Request where
  low : Int
  high : Int
  deriving DecidableEq

/-- Every face can be the answer, and nothing else. -/
def Range.request (r : Range) : Request :=
  ⟨r.low, r.high + 1⟩

namespace Die

def kind : Die → DieKind
  | .fresh kind => kind
  | .redrawn kind => kind

/-- The die that is rolled. -/
def base (d : Die) : Die :=
  .fresh d.kind

def again (d : Die) : Die :=
  .redrawn d.kind

def range? (d : Die) : Option Range :=
  d.kind.range?

/-- A die drawn again counts as one that can be rolled, whatever its kind. -/
def rollable : Die → Bool
  | .fresh kind => kind.range?.isSome
  | .redrawn _ => true

def className : Die → String
  | .fresh kind => kind.className
  | .redrawn _ => "Reroll"

def dump : Die → String
  | .fresh kind => kind.dump
  | .redrawn kind => Text.record (className (.redrawn kind)) [("die", kind.dump)]

def writable (d : Die) : Bool :=
  d.kind.writable

def chars (d : Die) : List Char :=
  d.kind.chars

def text (d : Die) : String :=
  String.ofList d.chars

end Die

end Dice
