import Dice.Draws
import Dice.Event

/-!
# Dice.Evaluation.Generation

Drawing dice, and the modifiers that draw more of them.

* `drawDie`, `drawPool` : one die, and the dice that a roll starts with;
* `chain` : draws as long as the last value meets a condition, up to a limit;
* `eachLive` : something done to every die in play, with what it adds put at the end;
* `rerollOnce`, `rerollWhile`, `explode`, `compound` : the modifiers.
-/

namespace Dice.Evaluation

/-- The greatest number of rerolls of one die. -/
def rerollLimit : Nat := 10

/-- A die is asked of the source by its own range. -/
def drawDie (d : Die) (origin : Origin) : Draws Event :=
  match d.range? with
  | none => .fail (.unknownDie (.die d))
  | some range => .draw range.request fun value => .done (.drawn d origin value)

/-- The dice drawn so far are kept newest first. -/
def drawPool (d : Die) : Nat → List Event → Draws (List Event)
  | 0, drawn => .done drawn.reverse
  | count + 1, drawn => (drawDie d .initial).bind fun e => drawPool d count (e :: drawn)

/-- Draws while the last value meets the condition. A warning is given if it still does when the
limit is reached. -/
def chain (p : Point) (draw : Draws Event) (warning : Int → Warning) :
    Nat → Int → List Event → Draws (List Event)
  | left, last, drawn =>
    match p.holds last with
    | .error e => .fail (.unknownRelation e)
    | .ok false => .done drawn.reverse
    | .ok true =>
      match left with
      | 0 => .warn (warning last) (.done drawn.reverse)
      | left + 1 => draw.bind fun e => chain p draw warning left e.value (e :: drawn)

/-- Every die in play is handled in order. What handling adds comes after all events, and is not
handled itself. Events handled and events added are kept newest first. -/
def eachLive (handle : Event → Die → Draws (Event × List Event)) :
    List Event → List Event → List Event → Draws (List Event)
  | [], handled, added => .done (handled.reverse ++ added.reverse)
  | e :: events, handled, added =>
    match e.isLive, e.die with
    | true, some d =>
      (handle e d).bind fun (e, more) =>
        eachLive handle events (e :: handled) (more.reverse ++ added)
    | _, _ => eachLive handle events (e :: handled) added

/-- A die that meets the condition is replaced by a new one, whatever that shows. -/
def rerollOnce (p : Point) (events : List Event) : Draws (List Event) :=
  eachLive (fun e d =>
    match p.holds e.value with
    | .error err => .fail (.unknownRelation err)
    | .ok false => .done (e, [])
    | .ok true => (drawDie d .reroll).bind fun new => .done (e.discard, [new])) events [] []

/-- Only the last event of a chain of replacements counts. -/
def discardAllButLast : List Event → List Event
  | [] => []
  | [e] => [e]
  | e :: rest => e.discard :: discardAllButLast rest

def rerollWhile (m : Modifier) (p : Point) (events : List Event) : Draws (List Event) :=
  eachLive (fun e d =>
    (chain p (drawDie d .reroll) (.rerollLimit rerollLimit m) rerollLimit e.value []).bind
      fun drawn =>
        if drawn.isEmpty then .done (e, []) else .done (e.discard, discardAllButLast drawn))
    events [] []

/-- Every extra die counts beside the one that exploded. -/
def explode (limit : Nat) (m : Modifier) (p : Point) (events : List Event) : Draws (List Event) :=
  eachLive (fun e d =>
    (chain p (drawDie d .explosion) (fun _ => .explosionLimit limit m) limit e.value []).bind
      fun drawn => .done (e, drawn)) events [] []

/-- The die and its extra dice are replaced by one event with their sum. -/
def compoundSum (e : Event) (d : Die) (drawn : List Event) : Event :=
  .drawn d .compound (e.value + Event.total drawn)

def compound (limit : Nat) (m : Modifier) (p : Point) (events : List Event) :
    Draws (List Event) :=
  eachLive (fun e d =>
    (chain p (drawDie d .compound) (fun _ => .compoundLimit limit m) limit e.value []).bind
      fun drawn =>
        if drawn.isEmpty then .done (e, [])
        else .done (e.discard, drawn.map Event.discard ++ [compoundSum e d drawn])) events [] []

end Dice.Evaluation
