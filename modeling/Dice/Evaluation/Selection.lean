import Dice.Event

/-!
# Dice.Evaluation.Selection

Keeping and dropping dice by rank. No die is drawn here.

* `selectedCount` : how many of a number of dice a count selects;
* `rank` : the order of dice by value, equal ones in the order drawn;
* `keep`, `drop` : the modifiers.
-/

namespace Dice.Evaluation

/-- A negative count selects all but that many. -/
def selectedCount (count : Int) (total : Nat) : Nat :=
  if 0 ≤ count then min count.toNat total else total - count.natAbs

def precedes (highest : Bool) (a b : Int) : Bool :=
  if highest then b ≤ a else a ≤ b

/-- The order is stable. -/
def rank {α : Type} (value : α → Int) (highest : Bool) (items : List α) : List α :=
  items.mergeSort fun a b => precedes highest (value a) (value b)

/-- The places of the events that meet a condition. -/
def places (condition : Event → Bool) (events : List Event) : List (Event × Nat) :=
  events.zipIdx.filter fun item => condition item.1

/-- The places of the dice that count, best first. -/
def ranking (highest : Bool) (events : List Event) : List Nat :=
  (rank (fun item => item.1.value) highest (places Event.isKeptDie events)).map (·.2)

def dropPlaces (dropped : List Nat) (events : List Event) : List Event :=
  events.zipIdx.map fun item => if dropped.contains item.2 then item.1.dropped else item.1

/-- All but the first ones of the ranking are dropped. -/
def keep (count : Int) (highest : Bool) (events : List Event) : List Event :=
  let ranked := ranking highest events
  dropPlaces (ranked.drop (selectedCount count ranked.length)) events

/-- The first ones of the ranking are dropped. -/
def drop (count : Int) (highest : Bool) (events : List Event) : List Event :=
  let ranked := ranking highest events
  dropPlaces (ranked.take (selectedCount count ranked.length)) events

end Dice.Evaluation
