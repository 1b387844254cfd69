import Dice.Datum
import Dice.Evaluation.Basic

/-!
# Dice.Settings

Settings, and the limits taken from them.

* `lookup`, `lookupOr` : the value at a path of keys, with a default for keys that are missing;
* `shipped` : the settings that come with the program;
* `checkLimit` : limits are integers of at least one;
* `limitsFrom` : the limits of a settings file.
-/

namespace Dice.Settings

/-- A key is missing, or there is no looking up keys in what was found. -/
inductive LookupError where
  | missing (key : String)
  | notAMap (found : Datum)

namespace LookupError

def message : LookupError → String
  | .missing key => Text.quoted key
  | .notAMap (.text _) => "string indices must be integers, not 'str'"
  | .notAMap (.list _) => "list indices must be integers or slices, not str"
  | .notAMap found => Text.quoted found.className ++ " object is not subscriptable"

end LookupError

def find (settings : Datum) (key : String) : Except LookupError Datum :=
  match settings with
  | .map entries =>
    match Datum.find? key entries with
    | some value => .ok value
    | none => .error (.missing key)
  | found => .error (.notAMap found)

def lookup (settings : Datum) : List String → Except LookupError Datum
  | [] => .ok settings
  | key :: keys =>
    match find settings key with
    | .ok value => lookup value keys
    | .error e => .error e

/-- Only a missing key is replaced by the default. -/
def lookupOr (settings : Datum) (keys : List String) (default : Option Datum) :
    Except LookupError Datum :=
  match lookup settings keys, default with
  | .error (.missing _), some value => .ok value
  | result, _ => result

def shipped : Datum :=
  .map [
    ("paths", .map [("log_conf", .text "log.yml")]),
    ("evaluator", .map [
      ("max_explosions", .int 100),
      ("max_compounds", .int 100),
      ("max_rerolls", .int 10)])]

/-! ## Limits -/

/-- A value that is no limit is told, unless a number in it is too long to be written. -/
inductive LimitError where
  | refused (name : String) (value : Datum)
  | unwritable

namespace LimitError

def message : LimitError → String
  | .refused name value => name ++ " must be an integer >= 1, got " ++ value.dump ++ "."
  | .unwritable => Text.unwritableMessage

def of (name : String) (value : Datum) : LimitError :=
  if value.writable then .refused name value else .unwritable

end LimitError

/-- A truth value is no limit. -/
def checkLimit (name : String) (value : Datum) : Except LimitError Nat :=
  match value with
  | .int n => if 1 ≤ n then .ok n.toNat else .error (.of name value)
  | _ => .error (.of name value)

def explosionsName : String := "max_explosions"

def compoundsName : String := "max_compounds"

/-- Explosions are checked first. -/
def checkLimits (explosions compounds : Datum) : Except LimitError Limits :=
  match checkLimit explosionsName explosions with
  | .error e => .error e
  | .ok explosions =>
    match checkLimit compoundsName compounds with
    | .error e => .error e
    | .ok compounds => .ok ⟨explosions, compounds⟩

def standardExplosions : Datum := .int Limits.standard.explosions

def standardCompounds : Datum := .int Limits.standard.compounds

inductive Error where
  | lookup (e : LookupError)
  | limit (e : LimitError)

def limitsFrom (settings : Datum) : Except Error Limits :=
  let read (name : String) (default : Datum) :=
    lookupOr settings ["evaluator", name] (some default)
  match read explosionsName standardExplosions with
  | .error e => .error (.lookup e)
  | .ok explosions =>
    match read compoundsName standardCompounds with
    | .error e => .error (.lookup e)
    | .ok compounds => (checkLimits explosions compounds).mapError .limit

/-- An evaluator with its limits and its source, written out. -/
def dumpEvaluator (source : String) (limits : Limits) : String :=
  Text.record "DiceEvaluator" [
    ("rng", source),
    (explosionsName, toString limits.explosions),
    (compoundsName, toString limits.compounds)]

end Dice.Settings
