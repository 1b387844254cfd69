import Dice.Evaluation.Counting
import Dice.Evaluation.Generation
import Dice.Evaluation.Selection

/-!
# Dice.Evaluation.Basic

The value of a roll, with every event on the way to it.

* `Limits` : how far explosions and compounds may go;
* `applyModifier`, `applyAll` : modifiers on the events of a pool;
* `evaluatePool` : dice drawn, modified by phase, and summed up;
* `Node.evaluate` : any tree.
-/

namespace Dice

/-- The most extra dice that one die may explode into or compound. -/
structure Limits where
  explosions : Nat
  compounds : Nat
  deriving DecidableEq

def Limits.standard : Limits := ⟨100, 100⟩

/-- The events are in the order drawn. -/
structure Evaluation where
  value : Int
  events : List Event

namespace Evaluation

def kept (e : Evaluation) : List Event :=
  e.events.filter Event.isKept

def successes (e : Evaluation) : Nat :=
  (e.events.filter fun event => event.mark = .success).length

def failures (e : Evaluation) : Nat :=
  (e.events.filter fun event => event.mark = .failure).length

/-! ## Modifiers -/

def applyTrigger (limits : Limits) (t : Trigger) (p : Point) (pool : List Bool)
    (events : List Event) : Draws (List Event) :=
  let m : Modifier := .onMatch t p
  match t with
  | .rerollOnce => rerollOnce p events
  | .rerollWhile => rerollWhile m p events
  | .explode => explode limits.explosions m p events
  | .compound => compound limits.compounds m p events
  | .success => .ofExcept .unknownRelation (count .success p pool events)
  | .failure => .ofExcept .unknownRelation (count .failure p pool events)
  | .general => .fail (.unknownModifier m)

def applyModifier (limits : Limits) (m : Modifier) (pool : List Bool) (events : List Event) :
    Draws (List Event) :=
  match m with
  | .keep count highest => .done (keep count highest events)
  | .drop count highest => .done (drop count highest events)
  | .onMatch trigger point => applyTrigger limits trigger point pool events
  | .adjust (.known sign) value => .done (adjust (sign.apply value) events)
  | .adjust (.unknown found) _ => .fail (.noFactor found)
  | .general => .fail (.unknownModifier .general)

/-- The first modifier of the last phase fixes the pool that is counted. -/
def applyAll (limits : Limits) : List Modifier → Option (List Bool) → List Event →
    Draws (List Event)
  | [], _, events => .done events
  | m :: modifiers, pool, events =>
    let pool := if m.phase = .finalization then some (pool.getD (poolOf events)) else pool
    (applyModifier limits m (pool.getD []) events).bind (applyAll limits modifiers pool)

/-- Things that are no modifiers have no phase; the first of them is found out. -/
def modifiersOf : List Node → Except RollError (List Modifier)
  | [] => .ok []
  | .modifier m :: nodes => (modifiersOf nodes).map (m :: ·)
  | node :: _ => .error (.noPhase node.className)

/-! ## Rolls -/

def keptSum (events : List Event) : Int :=
  Event.total (events.filter Event.isKept)

/-- Only a die that is not drawn again, and has faces, can start a pool. -/
def poolDie? : Node → Option Die
  | .die (.fresh kind) => if kind.range?.isSome then some (.fresh kind) else none
  | _ => none

/-- The dice are drawn before the modifiers are looked at. -/
def evaluatePool (limits : Limits) (count : Int) (die : Node) (modifiers : List Node) :
    Draws Evaluation :=
  match poolDie? die with
  | none => .fail (.unknownDie die)
  | some d =>
    (drawPool d count.toNat []).bind fun events =>
      (Draws.ofExcept id (modifiersOf modifiers)).bind fun modifiers =>
        (applyAll limits (phased modifiers) none events).bind fun events =>
          .done ⟨keptSum events, events⟩

/-- The events of a term carry its number and sign, in place of those that they had. -/
def inGroup (number : Nat) (sign : Sign) (e : Event) : Event :=
  { e with group := some number, groupSign := some sign }

end Evaluation

namespace Node

open Evaluation

mutual

def evaluate (limits : Limits) : Node → Draws Evaluation
  | .pool count kind modifiers => evaluatePool limits count kind modifiers
  | .sum terms => evaluateTerms limits 0 ⟨0, []⟩ terms
  | .constant value => .done ⟨value, [.summary .constant value]⟩
  | .stranger s => .fail (.unknownRoll (.stranger s))
  | .die d => .fail (.unknownRoll (.die d))
  | .modifier m => .fail (.unknownRoll (.modifier m))
  | .bareRoll => .fail (.unknownRoll .bareRoll)
  | .bare => .fail (.unknownRoll .bare)
termination_by structural n => n

/-- Terms in order, with their number and the sum so far. -/
def evaluateTerms (limits : Limits) (number : Nat) (sum : Evaluation) :
    List (Symbol Sign × Node) → Draws Evaluation
  | [] => .done sum
  | (.unknown found, _) :: _ => .fail (.unknownSign found)
  | (.known sign, roll) :: terms =>
    (roll.evaluate limits).bind fun term =>
      evaluateTerms limits (number + 1)
        ⟨sum.value + sign.apply term.value, sum.events ++ term.events.map (inGroup number sign)⟩
        terms
termination_by structural terms => terms

end

end Node

end Dice
