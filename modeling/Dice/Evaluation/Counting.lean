import Dice.Event
import Dice.Modifier

/-!
# Dice.Evaluation.Counting

Counting dice as successes and failures, and adding constants. No die is drawn here.

* `poolOf` : the dice that counting looks at;
* `hits` : which of them meet a condition;
* `count` : dice marked, and everything collapsed into their number;
* `adjust` : a constant added.
-/

namespace Dice.Evaluation

/-- Which events are dice that count. The pool is fixed once, before the first count. -/
def poolOf (events : List Event) : List Bool :=
  events.map Event.isKeptDie

/-- Only dice of the pool without a mark are asked. Events after the pool are none of it. -/
def hits (p : Point) : List Bool → List Event → Except UnknownRelation (List Bool)
  | inPool :: pool, e :: events =>
    if inPool && e.mark = .neutral then
      match p.holds e.value with
      | .error err => .error err
      | .ok hit => (hits p pool events).map (hit :: ·)
    else (hits p pool events).map (false :: ·)
  | _, _ => .ok []

def markHits (m : Mark) : List Bool → List Event → List Event
  | hit :: hits, e :: events =>
    (if hit then { e with mark := m } else e) :: markHits m hits events
  | _, events => events

/-- Earlier counts stand, all else that counted is discarded. -/
def collapse (e : Event) : Event :=
  if e.isKept && !e.isTally then e.discard else e

/-- Failures count negatively. -/
def tally (m : Mark) (count : Nat) : Event :=
  .summary .tally (if m = .success then count else -(count : Int))

def count (m : Mark) (p : Point) (pool : List Bool) (events : List Event) :
    Except UnknownRelation (List Event) :=
  (hits p pool events).map fun found =>
    (markHits m found events).map collapse ++ [tally m (found.count true)]

def adjust (amount : Int) (events : List Event) : List Event :=
  events ++ [.summary .constant amount]

end Dice.Evaluation
