import Dice.Symbol
import Dice.Die

/-!
# Dice.Modifier

What is done to the dice of a roll after they are drawn.

* `Point` : a comparison with a number, the condition of most modifiers;
* `Trigger` : what happens to dice that meet the condition;
* `Modifier` : the modifiers;
* `Phase`, `Modifier.phase` : the order in which they take effect;
* `phased` : modifiers by phase, in their own order within a phase.
-/

namespace Dice

structure Point where
  relation : Symbol Relation
  value : Int
  deriving DecidableEq

/-- The trigger `general` does nothing in particular, and no evaluation knows it. -/
inductive Trigger where
  | rerollOnce
  | rerollWhile
  | explode
  | compound
  | success
  | failure
  | general
  deriving DecidableEq

/-- Dice are kept or dropped by rank, dice that meet a condition trigger something, or a constant
is added; `general` is no particular modifier. -/
inductive Modifier where
  | keep (count : Int) (highest : Bool)
  | drop (count : Int) (highest : Bool)
  | onMatch (trigger : Trigger) (point : Point)
  | adjust (sign : Symbol Sign) (value : Int)
  | general
  deriving DecidableEq

/-- Dice are generated, then selected, then counted and adjusted. -/
inductive Phase where
  | none
  | generation
  | selection
  | finalization
  deriving DecidableEq

namespace Phase

def all : List Phase := [.none, .generation, .selection, .finalization]

def number : Phase → Nat
  | .none => 0
  | .generation => 1
  | .selection => 2
  | .finalization => 3

end Phase

/-- The condition of a comparison point, asked of a value. -/
def Point.holds (p : Point) (value : Int) : Except UnknownRelation Bool :=
  compare p.relation value p.value

namespace Trigger

def phase : Trigger → Phase
  | .rerollOnce | .rerollWhile | .explode | .compound => .generation
  | .success | .failure => .finalization
  | .general => .none

/-- The letters in front of the comparison. -/
def letters : Trigger → List Char
  | .rerollOnce => ['r', 'o']
  | .rerollWhile => ['r', 'c']
  | .explode => ['!']
  | .compound => ['^']
  | .failure => ['f']
  | .success | .general => []

def className : Trigger → String
  | .rerollOnce => "RerollOnceModifier"
  | .rerollWhile => "RerollMultipleModifier"
  | .explode => "ExplodeModifier"
  | .compound => "CompoundingModifier"
  | .success => "SuccessModifier"
  | .failure => "FailureModifier"
  | .general => "ComparisonModifier"

end Trigger

namespace Modifier

def phase : Modifier → Phase
  | .keep _ _ | .drop _ _ => .selection
  | .onMatch trigger _ => trigger.phase
  | .adjust _ _ => .finalization
  | .general => .none

def className : Modifier → String
  | .keep _ _ => "KeepModifier"
  | .drop _ _ => "DropModifier"
  | .onMatch trigger _ => trigger.className
  | .adjust _ _ => "ConstantModifier"
  | .general => "Modifier"

def dump (m : Modifier) : String :=
  Text.record m.className <|
    match m with
    | .keep count highest | .drop count highest =>
      [("count", toString count), ("highest", Text.truth highest)]
    | .onMatch _ point =>
      [("op", point.relation.dump Relation.dump), ("value", toString point.value)]
    | .adjust sign value => [("op", sign.dump Sign.dump), ("value", toString value)]
    | .general => []

def writable : Modifier → Bool
  | .keep count _ | .drop count _ => Text.writable count
  | .onMatch _ point => point.relation.writable && Text.writable point.value
  | .adjust sign value => sign.writable && Text.writable value
  | .general => true

/-- The modifier in notation; a symbol that is not known has no character to write. -/
def chars? : Modifier → Option (List Char)
  | .keep count highest => some ('k' :: (if highest then 'h' else 'l') :: Text.numeral count)
  | .drop count highest => some ('d' :: (if highest then 'h' else 'l') :: Text.numeral count)
  | .onMatch trigger point =>
    point.relation.known?.map fun relation =>
      trigger.letters ++ relation.char :: Text.numeral point.value
  | .adjust sign value => sign.known?.map fun sign => sign.char :: Text.numeral value
  | .general => some (Modifier.dump .general).toList

/-- The amount that a constant adds. -/
def signed? : Modifier → Option Int
  | .adjust (.known sign) value => some (sign.apply value)
  | _ => none

end Modifier

/-- Modifiers by phase; within a phase the order of notation stands. -/
def phased (modifiers : List Modifier) : List Modifier :=
  Phase.all.flatMap fun phase => modifiers.filter (·.phase = phase)

end Dice
