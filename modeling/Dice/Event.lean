import Dice.Die
import Dice.Symbol

/-!
# Dice.Event

One contribution to a roll, with where it came from and what became of it.

* `Event` : a die drawn, a constant, or a count of dice;
* `significance` : whether a value is an end of the range of its die;
* `Event.text` : the value with marks for rerolled, exploded, dropped and successful dice.
-/

namespace Dice

/-- Why a die was drawn. -/
inductive Origin where
  | initial
  | reroll
  | explosion
  | compound
  deriving DecidableEq

inductive Significance where
  | none
  | minimum
  | maximum
  deriving DecidableEq

/-- Whether an event counts: dropped dice are left out by rank, discarded ones are replaced. -/
inductive Status where
  | kept
  | dropped
  | discarded
  deriving DecidableEq

/-- What counting made of a die. -/
inductive Mark where
  | neutral
  | success
  | failure
  deriving DecidableEq

/-- The group is the number of the term of a sum that the event belongs to, with the sign of that
term. -/
structure Event where
  value : Int
  origin : Origin
  die : Option Die
  significance : Significance
  status : Status
  mark : Mark
  group : Option Int
  groupSign : Option Sign
  deriving DecidableEq

namespace Origin

def all : List Origin := [.initial, .reroll, .explosion, .compound]

def name : Origin → String
  | .initial => "initial"
  | .reroll => "reroll"
  | .explosion => "explosion"
  | .compound => "compound"

def dump : Origin → String
  | .initial => "<DieEventType.INITIAL: 'initial'>"
  | .reroll => "<DieEventType.REROLL: 'reroll'>"
  | .explosion => "<DieEventType.EXPLOSION: 'explosion'>"
  | .compound => "<DieEventType.COMPOUND: 'compound'>"

end Origin

namespace Significance

def all : List Significance := [.none, .minimum, .maximum]

def name : Significance → String
  | .none => "none"
  | .minimum => "minimum"
  | .maximum => "maximum"

def dump : Significance → String
  | .none => "<RollSignificance.NONE: 'none'>"
  | .minimum => "<RollSignificance.MINIMUM: 'minimum'>"
  | .maximum => "<RollSignificance.MAXIMUM: 'maximum'>"

end Significance

namespace Status

def all : List Status := [.kept, .dropped, .discarded]

def name : Status → String
  | .kept => "kept"
  | .dropped => "dropped"
  | .discarded => "discarded"

def dump : Status → String
  | .kept => "<DieStatus.KEPT: 'kept'>"
  | .dropped => "<DieStatus.DROPPED: 'dropped'>"
  | .discarded => "<DieStatus.DISCARDED: 'discarded'>"

end Status

namespace Mark

def all : List Mark := [.neutral, .success, .failure]

def name : Mark → String
  | .neutral => "neutral"
  | .success => "success"
  | .failure => "failure"

def dump : Mark → String
  | .neutral => "<SuccessStatus.NEUTRAL: 'neutral'>"
  | .success => "<SuccessStatus.SUCCESS: 'success'>"
  | .failure => "<SuccessStatus.FAILURE: 'failure'>"

end Mark

/-- The greatest face comes before the least, should a die have only one. -/
def significance (d : Die) (value : Int) : Significance :=
  match d.range? with
  | none => .none
  | some range =>
    if value = range.high then .maximum
    else if value = range.low then .minimum
    else .none

namespace Event

/-- A fixed number that counts, as constants and counts of dice enter a roll. -/
def summary (kind : DieKind) (value : Int) : Event where
  value := value
  origin := .initial
  die := some (.fresh kind)
  significance := .none
  status := .kept
  mark := .neutral
  group := none
  groupSign := none

/-- A die just drawn counts. A die drawn again is of the kind that remembers it. -/
def drawn (d : Die) (origin : Origin) (value : Int) : Event where
  value := value
  origin := origin
  die := some (if origin = .reroll then d.again else d.base)
  significance := Dice.significance d value
  status := .kept
  mark := .neutral
  group := none
  groupSign := none

def signedValue (e : Event) : Int :=
  if e.groupSign = some .minus then -e.value else e.value

def isKept (e : Event) : Bool :=
  e.status = .kept

def isDropped (e : Event) : Bool :=
  e.status = .dropped

def isDiscarded (e : Event) : Bool :=
  e.status = .discarded

/-- Constants and counts of dice are no dice. -/
def isDie (e : Event) : Bool :=
  match e.die with
  | some d => d.rollable
  | none => false

def isTally (e : Event) : Bool :=
  e.die = some (.fresh .tally)

def isConstant (e : Event) : Bool :=
  e.die = some (.fresh .constant)

/-- Dice that modifiers may still replace or add to. -/
def isLive (e : Event) : Bool :=
  !e.isDiscarded && e.isDie

def isKeptDie (e : Event) : Bool :=
  e.isKept && e.isDie

def discard (e : Event) : Event :=
  { e with status := .discarded }

def dropped (e : Event) : Event :=
  { e with status := .dropped }

/-! ## Display -/

/-- The marks before and after the value, the innermost ones nearest to it. -/
def marks (e : Event) : List Char × List Char :=
  let inner : List Char × List Char :=
    if e.isDiscarded && e.isDie && e.mark = .neutral then ([], ['r']) else ([], [])
  let explosion := if e.origin = .explosion then ['_', '_'] else []
  let dropping := if e.isDropped then ['~', '~'] else []
  let success := if e.mark = .success then ['*', '*'] else []
  (success ++ dropping ++ explosion ++ inner.1, inner.2 ++ explosion ++ dropping ++ success)

def chars (e : Event) : List Char :=
  e.marks.1 ++ (Text.numeral e.value ++ e.marks.2)

def text (e : Event) : String :=
  String.ofList e.chars

/-- The sum of the plain values. -/
def total : List Event → Int
  | [] => 0
  | e :: events => e.value + total events

/-- The marks around an empty place for the value. -/
def template (e : Event) : String :=
  String.ofList (e.marks.1 ++ ('\x7b' :: '\x7d' :: e.marks.2))

def dumpDie : Option Die → String
  | none => "None"
  | some d => d.dump

def dump (e : Event) : String :=
  Text.record "DieEvent" [
    ("value", toString e.value),
    ("event_type", e.origin.dump),
    ("die_type", dumpDie e.die),
    ("significance", e.significance.dump),
    ("status", e.status.dump),
    ("success", e.mark.dump),
    ("group_id", match e.group with | none => "None" | some n => toString n),
    ("group_operator", match e.groupSign with | none => "None" | some s => s.dump)]

end Event

end Dice
