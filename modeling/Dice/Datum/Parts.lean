import Dice.Datum

/-!
# Dice.Datum.Parts

Values taken apart.

* `field`, `hasField` : what a map holds under a key;
* `integer`, `string`, `items`, `entries` : a value as one of some kind, or an empty one of that
  kind;
* `intAt`, `textAt` and the like : the same for what a map holds under a key.
-/

namespace Dice.Datum

def entries : Datum → List (String × Datum)
  | .map entries => entries
  | _ => []

def items : Datum → List Datum
  | .list items => items
  | _ => []

def integer (d : Datum) : Int :=
  d.integer?.getD 0

def string? : Datum → Option String
  | .text s => some s
  | _ => none

def string (d : Datum) : String :=
  d.string?.getD ""

def flag : Datum → Bool
  | .bool b => b
  | _ => false

/-! ## Fields -/

def field? (d : Datum) (key : String) : Option Datum :=
  find? key d.entries

def field (d : Datum) (key : String) : Datum :=
  (d.field? key).getD .null

def hasField (d : Datum) (key : String) : Bool :=
  (d.field? key).isSome

def intAt (d : Datum) (key : String) : Int :=
  (d.field key).integer

/-- A negative number counts as zero. -/
def natAt (d : Datum) (key : String) : Nat :=
  (d.intAt key).toNat

def textAt (d : Datum) (key : String) : String :=
  (d.field key).string

def textAt? (d : Datum) (key : String) : Option String :=
  (d.field key).string?

def flagAt (d : Datum) (key : String) : Bool :=
  (d.field key).flag

def listAt (d : Datum) (key : String) : List Datum :=
  (d.field key).items

def intsAt (d : Datum) (key : String) : List Int :=
  (d.listAt key).map integer

def textsAt (d : Datum) (key : String) : List String :=
  (d.listAt key).map string

def entriesAt (d : Datum) (key : String) : List (String × Datum) :=
  (d.field key).entries

end Dice.Datum
