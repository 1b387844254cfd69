import Dice.Datum
import Dice.Evaluation.Basic

/-!
# Dice.Report

What is shown of an evaluated roll.

* `stepsText` : the events of every term, with marks;
* `countsText` : the numbers of successes and failures;
* `Throw`, `Throw.text` : one roll with its notation, steps, value and note;
* `traceLines` : one line for each event.
-/

namespace Dice

/-- Lines below the first are set in by this many spaces. -/
def indent : String := String.ofList (List.replicate 8 ' ')

/-! ## Steps -/

/-- A constant that is a term of its own stands without brackets. -/
def groupText : List Event → String
  | [e] => if e.isConstant then e.text else "(" ++ e.text ++ ")"
  | events => "(" ++ Text.commaSeparated (events.map Event.text) ++ ")"

/-- Neighbours of the same group stand together. -/
def groups (events : List Event) : List (List Event) :=
  events.splitBy fun a b => a.group = b.group

def groupSign? : List Event → Option Sign
  | [] => none
  | e :: _ => e.groupSign

/-- The first group shows a minus only; a later one without a sign is added. -/
def groupLead (atStart : Bool) (sign : Option Sign) : String :=
  match atStart, sign with
  | true, some .minus => "-"
  | true, _ => ""
  | false, some .minus => " - "
  | false, _ => " + "

def stepsFrom (atStart : Bool) : List (List Event) → String
  | [] => ""
  | events :: rest =>
    groupLead atStart (groupSign? events) ++ groupText events ++ stepsFrom false rest

def stepsText (events : List Event) : String :=
  stepsFrom true (groups events)

/-! ## Counts -/

/-- Nothing is said if nothing was counted. -/
def countsText (e : Evaluation) : String :=
  if e.events.any Event.isTally then
    let difference : Int := (e.successes : Int) - (e.failures : Int)
    "(" ++ (if 0 ≤ difference then "+" else "") ++ toString difference ++ ") **" ++
      toString e.failures ++ "** Failure(s), **" ++ toString e.successes ++ "** Success(es)"
  else ""

/-! ## Throws -/

/-- A roll as it is presented. Whoever fills one in by hand may leave out any part. -/
structure Throw where
  spec : Option Datum
  steps : Option Datum
  value : Option Datum
  success : Option Datum
  note : Option Datum

/-- A part that has to be there is missing, or a number has too many digits to be written. -/
inductive ThrowError where
  | missing (part : String)
  | unwritable

namespace Throw

def ofEvaluation (spec : String) (e : Evaluation) (note : Option String) : Throw where
  spec := some (.text spec)
  steps := some (.text (stepsText e.events))
  value := some (.int e.value)
  success := some (.text (countsText e))
  note := some (match note with | none => .null | some note => .text note)

def require (part : String) : Option Datum → Except ThrowError String
  | none => .error (.missing part)
  | some (.int n) => if Text.writable n then .ok (toString n) else .error .unwritable
  | some d => .ok d.display

/-- A part that may be missing is shown on a line of its own. -/
def trail (label : String) : Option Datum → String
  | none => ""
  | some d => if d.truthy then "\n" ++ indent ++ label ++ d.display else ""

def text (t : Throw) : Except ThrowError String :=
  match require "spec" t.spec with
  | .error e => .error e
  | .ok spec =>
    match require "steps" t.steps with
    | .error e => .error e
    | .ok steps =>
      match require "value" t.value with
      | .error e => .error e
      | .ok value =>
        .ok (spec ++ " = " ++ steps ++ " = " ++ value ++ trail "" t.success ++
          trail "Note: " t.note)

end Throw

/-! ## Trace -/

def padLeft (width : Nat) (s : String) : String :=
  String.ofList (List.replicate (width - s.length) ' ') ++ s

def dieText : Option Die → String
  | none => "None"
  | some d => d.text

/-- An event of a group has a sign, or it has no line. -/
def traceLine? (number : Nat) (e : Event) : Option String :=
  let line := indent ++ padLeft 3 (toString number) ++ ": " ++ padLeft 4 (toString e.value) ++
    " d" ++ dieText e.die ++ " " ++ e.origin.name ++ " " ++ e.status.name
  let line := if e.significance = .none then line else line ++ " " ++ e.significance.name
  let line := if e.mark = .neutral then line else line ++ " " ++ e.mark.name
  match e.group, e.groupSign with
  | none, _ => some line
  | some group, some sign =>
    some (line ++ " group " ++ toString group ++ " (" ++ String.singleton sign.char ++ ")")
  | some _, none => none

def traceFrom? (number : Nat) : List Event → Option (List String)
  | [] => some []
  | e :: events =>
    match traceLine? number e, traceFrom? (number + 1) events with
    | some line, some lines => some (line :: lines)
    | _, _ => none

def traceLines? (events : List Event) : Option (List String) :=
  traceFrom? 0 events

end Dice
