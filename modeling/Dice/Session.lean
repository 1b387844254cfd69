import Dice.Roll
import Dice.Settings
import Dice.Source.Bounds

/-!
# Dice.Session

A sequence of operations on an evaluator and its source.

* `Session` : the limits, the source, and rolls by name;
* `Operation`, `Reply`, `Error` : what is asked, answered, and refused;
* `Session.perform` : one operation. One that is refused changes nothing but the draws already made.
-/

namespace Dice

structure Session where
  limits : Limits
  source : Source
  rolls : List (String × Node)

namespace Session

/-- A roll by name, by notation, or given as a tree. -/
inductive Target where
  | name (name : String)
  | text (text : String)
  | tree (n : Node)

inductive Limit where
  | explosions
  | compounds

inductive Operation where
  | script (values : List Int)
  | twister (seed : Datum)
  | limits (explosions compounds : Datum)
  | setLimit (limit : Limit) (value : Datum)
  | setSeed (value : Datum)
  | getSeed
  | next (bounds : List Datum)
  | read (name : String) (text : String)
  | evaluate (target : Target)
  | detail (target : Target)

inductive Reply where
  | done
  | text (s : String)
  | number (n : Int)
  | detail (value : Int) (steps : String)

inductive Error where
  | failure (e : Failure)
  | draw (e : DrawError)
  | limit (e : Settings.LimitError)
  | seed (e : Seed.SeedError)
  | scriptHasNoSeed
  | scriptTakesNoSeed
  | seedNotSet
  | unknownName (name : String)

namespace Error

def scriptHasNoSeedMessage : String := "SequenceRandomSource has no seed."

def scriptTakesNoSeedMessage : String :=
  "property 'seed' of 'SequenceRandomSource' object has no setter"

def seedNotSetMessage : String := "Seed was not explicitly set."

end Error

/-- A twister given nothing for a seed takes a hidden one. -/
def sourceOfSeed (hidden : Nat) : Datum → Except Seed.SeedError Source
  | .null => .ok (.ofHiddenSeed hidden)
  | seed => (Seed.integerOf seed).map Source.ofSeed

def seedOf : Source → Except Error Nat
  | .script _ _ => .error .scriptHasNoSeed
  | .twister none _ => .error .seedNotSet
  | .twister (some seed) _ => .ok seed

def start (source : Source) (explosions compounds : Datum) : Except Error Session :=
  match Settings.checkLimits explosions compounds with
  | .error e => .error (.limit e)
  | .ok limits => .ok ⟨limits, source, []⟩

def setLimit (limits : Limits) (limit : Limit) (value : Datum) :
    Except Settings.LimitError Limits :=
  match limit with
  | .explosions =>
    (Settings.checkLimit Settings.explosionsName value).map fun n => { limits with explosions := n }
  | .compounds =>
    (Settings.checkLimit Settings.compoundsName value).map fun n => { limits with compounds := n }

/-- What an operation leaves, with the records it wrote. -/
structure Performed where
  reply : Except Error Reply
  session : Session
  records : List Log.Record

def answered (s : Session) (reply : Except Error Reply) : Performed :=
  ⟨reply, s, []⟩

/-- A name is looked up in the session, a text is read. -/
def targetRoll (s : Session) : Target → Except Error (Rolled Source Node)
  | .name name =>
    match s.rolls.lookup name with
    | some n => .ok (.pure n s.source)
    | none => .error (.unknownName name)
  | .text text => .ok (readLogged text s.source)
  | .tree n => .ok (.pure n s.source)

def evaluateTarget (s : Session) (target : Target) (reply : Evaluation → Reply) : Performed :=
  match s.targetRoll target with
  | .error e => s.answered (.error e)
  | .ok rolled =>
    let rolled := rolled.andThen (rollNode s.limits)
    ⟨(rolled.result.map reply).mapError .failure, { s with source := rolled.source },
      rolled.records⟩

def perform (s : Session) : Operation → Performed
  | .script values =>
    let source := Source.ofValues values
    answered { s with source := source } (.ok (.text source.dump))
  | .twister seed =>
    match sourceOfSeed 0 seed with
    | .error e => s.answered (.error (.seed e))
    | .ok source => answered { s with source := source } (.ok (.text source.dump))
  | .limits explosions compounds =>
    match Settings.checkLimits explosions compounds with
    | .error e => s.answered (.error (.limit e))
    | .ok limits => answered { s with limits := limits } (.ok .done)
  | .setLimit limit value =>
    match setLimit s.limits limit value with
    | .error e => s.answered (.error (.limit e))
    | .ok limits => answered { s with limits := limits } (.ok .done)
  | .setSeed value =>
    match s.source with
    | .script _ _ => s.answered (.error .scriptTakesNoSeed)
    | .twister _ _ =>
      match Seed.integerOf value with
      | .error e => s.answered (.error (.seed e))
      | .ok seed => answered { s with source := .ofSeed seed } (.ok .done)
  | .getSeed => s.answered ((seedOf s.source).map fun n => .number n)
  | .next bounds =>
    match s.source.next bounds with
    | (.ok n, source) => answered { s with source := source } (.ok (.number n))
    | (.error e, source) => answered { s with source := source } (.error (.draw e))
  | .read name text =>
    let rolled := readLogged text s.source
    match rolled.result with
    | .error e => ⟨.error (.failure e), s, rolled.records⟩
    | .ok n =>
      ⟨.ok (.text (n.text?.getD "")), { s with rolls := (name, n) :: s.rolls }, rolled.records⟩
  | .evaluate target => s.evaluateTarget target fun e => .number e.value
  | .detail target => s.evaluateTarget target fun e => .detail e.value (stepsText e.events)

/-- Operations one after another; one that is refused does not end the session. -/
def performAll (s : Session) : List Operation → List Performed
  | [] => []
  | operation :: operations =>
    let performed := s.perform operation
    performed :: performed.session.performAll operations

end Session

end Dice
