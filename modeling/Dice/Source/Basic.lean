import Dice.Die
import Dice.Source.Twister
import Dice.Text.Dump

/-!
# Dice.Source.Basic

Sources of random integers.

* `RandomSource` : anything that answers requests for an integer;
* `Source` : a script of answers, or a seeded twister;
* `SourceError` : why a source has no answer;
* `Source.answer` : the answer to a request.
-/

namespace Dice

/-- A script that is used up has no answer. A twister answers only ranges that lie within 64 bit
words with a sign and hold a number. -/
inductive SourceError where
  | tooManyBounds (given : Nat)
  | exhausted (length : Nat)
  | lowOutOfRange
  | highOutOfRange
  | emptyFromZero
  | empty
  deriving DecidableEq

namespace SourceError

def message : SourceError → String
  | .tooManyBounds given => "next takes at most 2 bounds, " ++ toString given ++ " given."
  | .exhausted length => "Sequence exhausted after " ++ toString length ++ " draws."
  | .lowOutOfRange => "low is out of bounds for int64"
  | .highOutOfRange => "high is out of bounds for int64"
  | .emptyFromZero => "high <= 0"
  | .empty => "low >= high"

end SourceError

/-- A source answers a request and goes on to its next state, also when it fails. -/
class RandomSource (σ : Type) where
  next : σ → Request → Except SourceError Int × σ

/-- One more than the greatest integer of a draw without bounds. -/
def defaultHigh : Int := 2147483647

/-- A script remembers all its answers and how many it gave; a twister remembers the seed that it
was given by name. -/
inductive Source where
  | script (values : List Int) (index : Nat)
  | twister (seed : Option Nat) (state : Twister)

namespace Source

def ofValues (values : List Int) : Source :=
  .script values 0

/-- Seeds are counted modulo this number. -/
def seedCount : Nat := 4294967295

def twisterOf (seed : Nat) : Twister :=
  Twister.ofSeed (UInt32.ofNat seed)

def ofSeed (seed : Int) : Source :=
  let seed := (seed % seedCount).toNat
  .twister (some seed) (twisterOf seed)

/-- A twister whose seed nobody chose. -/
def ofHiddenSeed (seed : Nat) : Source :=
  .twister none (twisterOf seed)

/-- Twice as many numbers as this fit into a word of 64 bits, half of them below zero. -/
def halfRange : Int := 9223372036854775808

/-- The bounds are checked one by one, before any word is used. -/
def rangeError? (r : Request) : Option SourceError :=
  if r.low < -halfRange then some .lowOutOfRange
  else if halfRange < r.high then some .highOutOfRange
  else if r.high ≤ r.low then some (if r.low = 0 then .emptyFromZero else .empty)
  else none

def answer (s : Source) (r : Request) : Except SourceError Int × Source :=
  match s with
  | .script values index =>
    match values[index]? with
    | some value => (.ok value, .script values (index + 1))
    | none => (.error (.exhausted values.length), s)
  | .twister seed state =>
    match rangeError? r with
    | some e => (.error e, s)
    | none =>
      let (offset, state) := Twister.upTo (r.high - 1 - r.low).toNat state
      (.ok (r.low + offset), .twister seed state)

instance : RandomSource Source where
  next := answer

/-- The number of answers that a script has left. -/
def remaining? : Source → Option Nat
  | .script values index => some (values.length - index)
  | .twister _ _ => none

def dump : Source → String
  | .script values index =>
    Text.record "SequenceRandomSource"
      [("values", Text.list (values.map toString)), ("index", toString index)]
  | .twister seed _ =>
    Text.record "NumpyRandomSource"
      [("_seed", match seed with | none => "None" | some n => toString n)]

end Source

end Dice
