import Dice.Node
import Dice.Source.Basic

/-!
# Dice.Draws

Computations that draw dice, apart from the source that the dice come from.

* `Draws` : a tree of requests, each with a computation for every answer;
* `Unknown`, `RollError` : how a computation can fail;
* `Warning` : what it may remark on its way;
* `Draws.run`, `Run` : the computation on a source, with every request in order.

Two computations that are equal make the same requests on every source.
-/

namespace Dice

/-- What no evaluation knows, in the place of a roll, a die, a modifier, a sign or a comparison. -/
inductive Unknown where
  | roll (n : Node)
  | die (n : Node)
  | modifier (m : Modifier)
  | sign (found : Stranger)
  | relation (e : UnknownRelation)

/-- A tree holds something unknown, which is told, unless a number in it is too long to be written.
The last two arise where a thing that is no modifier or no sign is asked for its phase or its
factor. -/
inductive RollError where
  | unknown (what : Unknown)
  | unwritable
  | noPhase (className : String)
  | noFactor (found : Stranger)

/-- A chain of draws that was cut at its limit. -/
inductive Warning where
  | rerollLimit (limit : Nat) (m : Modifier) (kept : Int)
  | explosionLimit (limit : Nat) (m : Modifier)
  | compoundLimit (limit : Nat) (m : Modifier)
  deriving DecidableEq

namespace Unknown

def message : Unknown → String
  | .roll n => "Unknown roll type: " ++ n.dump
  | .die n => "Unknown die type: " ++ n.dump
  | .modifier m => "Unknown modifier: " ++ m.dump
  | .sign found => "Unknown arithmetic operator: " ++ found.dump
  | .relation e => "Unknown comparison operator: " ++ e.found.dump

def writable : Unknown → Bool
  | .roll n | .die n => n.writable
  | .modifier m => m.writable
  | .sign found => found.writable
  | .relation e => e.found.writable

end Unknown

namespace RollError

def message : RollError → String
  | .unknown what => what.message
  | .unwritable => Text.unwritableMessage
  | .noPhase className => Text.quoted className ++ " object has no attribute 'PHASE'"
  | .noFactor found => Text.quoted found.className ++ " object has no attribute 'sign'"

/-- The message is made at once, and making it fails at a number that is too long. -/
def of (what : Unknown) : RollError :=
  if what.writable then .unknown what else .unwritable

def unknownRoll (n : Node) : RollError :=
  .of (.roll n)

def unknownDie (n : Node) : RollError :=
  .of (.die n)

def unknownModifier (m : Modifier) : RollError :=
  .of (.modifier m)

def unknownSign (found : Stranger) : RollError :=
  .of (.sign found)

def unknownRelation (e : UnknownRelation) : RollError :=
  .of (.relation e)

end RollError

namespace Warning

def message (w : Warning) : String :=
  let name (m : Modifier) := String.ofList (m.chars?.getD [])
  match w with
  | .rerollLimit limit m kept =>
    "Reroll limit of " ++ toString limit ++ " reached for " ++ name m ++ ", keeping " ++
      toString kept
  | .explosionLimit limit m =>
    "Explosion limit of " ++ toString limit ++ " reached for " ++ name m
  | .compoundLimit limit m =>
    "Compound limit of " ++ toString limit ++ " reached for " ++ name m

end Warning

inductive Draws (α : Type) where
  | done (result : α)
  | fail (e : RollError)
  | warn (w : Warning) (rest : Draws α)
  | draw (request : Request) (next : Int → Draws α)

namespace Draws

variable {α β : Type}

def bind : Draws α → (α → Draws β) → Draws β
  | .done a, f => f a
  | .fail e, _ => .fail e
  | .warn w rest, f => .warn w (rest.bind f)
  | .draw request next, f => .draw request fun answer => (next answer).bind f

instance : Monad Draws where
  pure := .done
  bind := bind

/-- A test that may fail, as a computation without draws. -/
def ofExcept {ε : Type} (error : ε → RollError) : Except ε α → Draws α
  | .ok a => .done a
  | .error e => .fail (error e)

end Draws

/-- A run fails by itself, or because its source did. -/
inductive RunError where
  | roll (e : RollError)
  | source (e : SourceError)

/-- What a run leaves: its result, the source after it, every request made, the last one also if
it failed, and the warnings. -/
structure Run (σ α : Type) where
  result : Except RunError α
  source : σ
  requests : List Request
  warnings : List Warning

namespace Draws

variable {σ α : Type} [RandomSource σ]

/-- Requests and warnings are gathered newest first. -/
def runFrom : Draws α → σ → List Request → List Warning → Run σ α
  | .done a, s, requests, warnings => ⟨.ok a, s, requests.reverse, warnings.reverse⟩
  | .fail e, s, requests, warnings => ⟨.error (.roll e), s, requests.reverse, warnings.reverse⟩
  | .warn w rest, s, requests, warnings => rest.runFrom s requests (w :: warnings)
  | .draw request next, s, requests, warnings =>
    match RandomSource.next s request with
    | (.ok value, s) => (next value).runFrom s (request :: requests) warnings
    | (.error e, s) =>
      ⟨.error (.source e), s, (request :: requests).reverse, warnings.reverse⟩

def run (p : Draws α) (s : σ) : Run σ α :=
  p.runFrom s [] []

end Draws

end Dice
