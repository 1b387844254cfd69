import Dice.Datum
import Dice.Event
import Dice.Node

/-!
# Dice.Node.Data

Trees and events as plain data, for whoever stores them or passes them on.

* `Die.data`, `Modifier.data`, `Node.data` : a tree as nested maps, each with its class under
  `node`;
* `Event.data` : the fields of an event.
-/

namespace Dice

def Stranger.data : Stranger → Datum
  | .absent => .null
  | .text s | .value _ s _ => .text s

def Symbol.data {α : Type} (char : α → Char) : Symbol α → Datum
  | .known a => .text (String.singleton (char a))
  | .unknown s => s.data

/-- A map that starts with the class of what it describes. -/
def Datum.classed (name : String) (fields : List (String × Datum)) : Datum :=
  .map (("node", .text name) :: fields)

def DieKind.data (kind : DieKind) : Datum :=
  .classed kind.className <|
    match kind with
    | .sided sides => [("sides", .int sides)]
    | _ => []

def Die.data : Die → Datum
  | .fresh kind => kind.data
  | .redrawn kind => .classed (Die.className (.redrawn kind)) [("die", kind.data)]

def Modifier.data (m : Modifier) : Datum :=
  .classed m.className <|
    match m with
    | .keep count highest | .drop count highest =>
      [("count", .int count), ("highest", .bool highest)]
    | .onMatch _ point =>
      [("op", point.relation.data Relation.char), ("value", .int point.value)]
    | .adjust sign value => [("op", sign.data Sign.char), ("value", .int value)]
    | .general => []

namespace Node

mutual

def data : Node → Datum
  | .stranger s => s.data
  | .die d => d.data
  | .modifier m => m.data
  | .constant value => .classed (className (.constant value)) [("value", .int value)]
  | .pool count kind modifiers =>
    .classed (className (.pool count kind modifiers))
      [("count", .int count), ("die_type", kind.data), ("modifiers", .list (dataAll modifiers))]
  | .sum terms => .classed (className (.sum terms)) [("terms", .list (dataTerms terms))]
  | .bareRoll => .classed (className .bareRoll) []
  | .bare => .classed (className .bare) []
termination_by structural n => n

def dataAll : List Node → List Datum
  | [] => []
  | n :: ns => n.data :: dataAll ns
termination_by structural ns => ns

def dataTerms : List (Symbol Sign × Node) → List Datum
  | [] => []
  | (sign, n) :: terms => .list [sign.data Sign.char, n.data] :: dataTerms terms
termination_by structural terms => terms

end

end Node

def Event.data (e : Event) : List (String × Datum) :=
  [("value", .int e.value), ("event_type", .text e.origin.name),
    ("die_type", e.die.elim .null Die.data), ("significance", .text e.significance.name),
    ("status", .text e.status.name), ("success", .text e.mark.name),
    ("group_id", e.group.elim .null fun n => .int n),
    ("group_operator", e.groupSign.elim .null fun s => .text (String.singleton s.char)),
    ("str", .text e.text)]

end Dice
