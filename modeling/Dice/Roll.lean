import Dice.Evaluation.Basic
import Dice.Grammar
import Dice.Log.Record
import Dice.Report

/-!
# Dice.Roll

A text read, rolled and shown, with everything that is logged on the way.

* `Failure` : why a text was not rolled;
* `Rolled` : what rolling leaves;
* `readLogged`, `rollNode`, `rollText` : reading and evaluating;
* `rollLines` : the lines shown for a text that is rolled a number of times.
-/

namespace Dice

open Log (Record)

/-- A result may have too many digits to be written, and nothing may say how often to roll. -/
inductive Failure where
  | grammar (e : Grammar.Error)
  | run (e : RunError)
  | unwritable
  | noTimes

def Failure.message : Failure → String
  | .grammar e => e.message
  | .run (.roll e) => e.message
  | .run (.source e) => e.message
  | .unwritable => Text.unwritableMessage
  | .noTimes => "'list' object cannot be interpreted as an integer"

/-- The requests are those made of the source, and the records those written, in order. -/
structure Rolled (σ α : Type) where
  result : Except Failure α
  source : σ
  requests : List Request
  records : List Record

namespace Rolled

variable {σ α β : Type}

/-- One thing after another on the same source. -/
def andThen (r : Rolled σ α) (f : α → σ → Rolled σ β) : Rolled σ β :=
  match r.result with
  | .error e => ⟨.error e, r.source, r.requests, r.records⟩
  | .ok a =>
    let next := f a r.source
    ⟨next.result, next.source, r.requests ++ next.requests, r.records ++ next.records⟩

def pure (a : α) (s : σ) : Rolled σ α :=
  ⟨.ok a, s, [], []⟩

end Rolled

/-- A number that is too long ends the reading before anything is logged. -/
def readRecords (text : String) : Except Grammar.Error Node → List Record
  | .ok n => [.ofPlace .grammar .debug ("Parsed " ++ Text.quoted text ++ " into " ++ n.dump)]
  | .error (.invalid _ position _) =>
    [.ofPlace .grammar .debug
      ("Failed to parse " ++ Text.quoted text ++ " at " ++ toString position)]
  | .error (.overlong _) => []

variable {σ : Type}

def readLogged (text : String) (s : σ) : Rolled σ Node :=
  let result := Grammar.read text
  ⟨result.mapError .grammar, s, [], readRecords text result⟩

/-- An evaluation that succeeds is logged with the tree in notation. -/
def evaluationRecords (n : Node) : Except RunError Evaluation → List Record
  | .error _ => []
  | .ok e =>
    match n.text? with
    | none => []
    | some text =>
      [.ofPlace .evaluator .debug
        ("Evaluated " ++ text ++ " = " ++ toString e.value ++ " with " ++
          toString e.events.length ++ " events")]

variable [RandomSource σ]

def rollNode (limits : Limits) (n : Node) (s : σ) : Rolled σ Evaluation :=
  let run := (n.evaluate limits).run s
  ⟨run.result.mapError .run, run.source, run.requests,
    run.warnings.map (fun w => .ofPlace .evaluator .warning w.message) ++
      evaluationRecords n run.result⟩

def rollText (limits : Limits) (text : String) (s : σ) : Rolled σ Evaluation :=
  (readLogged text s).andThen (rollNode limits)

/-- The total of a text under the standard limits. -/
def rollTotal (text : String) (s : σ) : Rolled σ Int :=
  (rollText .standard text s).andThen fun e s => .pure e.value s

/-! ## Lines -/

/-- A throw, and below it one line for each event if details are wanted. -/
def evaluationLines (text : String) (detailed : Bool) (e : Evaluation) :
    Except Failure (List String) :=
  if e.events.all (fun event => Text.writable event.value) then
    match (Throw.ofEvaluation text e none).text with
    | .error _ => .error .unwritable
    | .ok line => .ok (line :: (if detailed then (traceLines? e.events).getD [] else []))
  else .error .unwritable

/-- The tree evaluated again and again, each time on what the source has left. -/
def repeatLines (limits : Limits) (text : String) (detailed : Bool) (n : Node) :
    Nat → σ → Rolled σ (List String)
  | 0, s => .pure [] s
  | times + 1, s =>
    (rollNode limits n s).andThen fun e s =>
      (⟨evaluationLines text detailed e, s, [], []⟩ : Rolled σ (List String)).andThen fun lines s =>
        (repeatLines limits text detailed n times s).andThen fun more s => .pure (lines ++ more) s

/-- The text is read once, also if it is not rolled at all, and before it matters how often it is
to be rolled. -/
def rollLines (limits : Limits) (text : String) (times : Option Int) (detailed : Bool) (s : σ) :
    Rolled σ (List String) :=
  (readLogged text s).andThen fun n s =>
    match times with
    | none => ⟨.error .noTimes, s, [], []⟩
    | some times => repeatLines limits text detailed n times.toNat s

end Dice
