import Dice.Command.Usage
import Dice.Problem
import Dice.Roll
import Dice.Seed
import Dice.Settings
import Dice.Text.Lines

/-!
# Dice.Command.Basic

The program as it is run from a command line.

* `Reply`, `reply` : what a text is answered with;
* `answerLine`, `interactive` : one text a line, until there are no more;
* `Ran`, `perform` : a run with given options;
* `run` : a run with given words.

A text that is no notation is answered and logged; every other failure ends the run.
-/

namespace Dice.Command

open Log (Record)

variable {σ : Type} [RandomSource σ]

/-! ## Answering -/

/-- Whether the text was rolled, and what is printed. -/
structure Reply where
  accepted : Bool
  text : String

/-- The record of a text that is no notation. -/
def refusalRecord (text message : String) : Record :=
  ⟨Log.Place.command.logger, .info,
    Problem.report Problem.Kind.invalidText.name message text, .failures⟩

/-- Lines are printed together, or nothing is. -/
def reply (limits : Limits) (o : Options) (text : String) (s : σ) : Rolled σ Reply :=
  let rolled := rollLines limits text (o.times.value?.map Int.ofNat) o.detailed s
  match rolled.result with
  | .ok lines => ⟨.ok ⟨true, "\n".intercalate lines ++ "\n"⟩, rolled.source, rolled.requests,
      rolled.records⟩
  | .error (.grammar (.invalid refused position expected)) =>
    let message := Grammar.Error.message (.invalid refused position expected)
    ⟨.ok ⟨false, message ++ "\n"⟩, rolled.source, rolled.requests,
      rolled.records ++ [refusalRecord text message]⟩
  | .error e => ⟨.error e, rolled.source, rolled.requests, rolled.records⟩

def prompt : String := "> "

/-- A failure keeps what was printed before it. -/
structure Ran (ε : Type) where
  result : Except ε Nat
  output : String
  records : List Record

/-- Something printed and logged before the rest. -/
def Ran.after {ε : Type} (output : String) (records : List Record) (r : Ran ε) : Ran ε :=
  ⟨r.result, output ++ r.output, records ++ r.records⟩

/-- What is printed for a line. Blank lines are passed over. -/
def answerLine (limits : Limits) (o : Options) (line : String) (s : σ) : Rolled σ String :=
  if Text.isBlankText line.toList then .pure "" s
  else (reply limits o line s).andThen fun r s => .pure r.text s

/-- The source goes on from line to line. -/
def interactive (limits : Limits) (o : Options) : List String → σ → Ran Failure
  | [], _ => ⟨.ok 0, prompt ++ "\n", []⟩
  | line :: lines, s =>
    let answered := answerLine limits o line s
    match answered.result with
    | .error e => ⟨.error e, prompt, answered.records⟩
    | .ok text =>
      (interactive limits o lines answered.source).after (prompt ++ text) answered.records

/-- The words of the command line are one text. -/
def once (limits : Limits) (o : Options) (s : σ) : Ran Failure :=
  let replied := reply limits o (" ".intercalate o.words) s
  match replied.result with
  | .error e => ⟨.error e, "", replied.records⟩
  | .ok r => ⟨.ok (if r.accepted then 0 else 1), r.text, replied.records⟩

/-! ## Runs -/

/-- The seed that was asked for, unless it is zero or nothing, or else one made of the time. -/
def seedOf (o : Options) (now : Moment) : Nat :=
  Seed.choose (match o.seed with | some (.value n) => .int n | _ => .null) now

def seedRecord (seed : Nat) : Record :=
  .ofPlace .command .info ("Random source seeded with " ++ toString seed)

inductive Error where
  | failure (e : Failure)
  | settings (e : Settings.Error)

def Error.message : Error → String
  | .failure e => e.message
  | .settings (.lookup e) => e.message
  | .settings (.limit e) => e.message

/-- Options without words ask for texts line by line. -/
def perform (settings : Datum) (o : Options) (input : String) (now : Moment) : Ran Error :=
  let seed := seedOf o now
  let ran : Ran Error :=
    match Settings.limitsFrom settings with
    | .error e => ⟨.error (.settings e), "", []⟩
    | .ok limits =>
      let source := Source.ofSeed seed
      let ran :=
        if o.words.isEmpty then interactive limits o (Text.lines input) source
        else once limits o source
      ⟨ran.result.mapError .failure, ran.output, ran.records⟩
  ran.after "" [seedRecord seed]

/-- Words that are not read to their end are answered at once. -/
def stopped (stop : Stop) : Ran Error :=
  ⟨.ok stop.status, stop.output, []⟩

def run (settings : Datum) (words : List String) (input : String) (now : Moment) :
    Ran Error :=
  match Options.read words with
  | .error stop => stopped stop
  | .ok o => perform settings o input now

end Dice.Command
