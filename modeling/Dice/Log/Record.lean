/-!
# Dice.Log.Record

What a part of the program says about its work.

* `Level` : how much a record matters;
* `Place` : the parts of the program that write records;
* `Record` : a message with the logger it goes to and the place it comes from.
-/

namespace Dice.Log

inductive Level where
  | debug
  | info
  | warning
  | error
  | critical
  deriving DecidableEq

namespace Level

def all : List Level := [.debug, .info, .warning, .error, .critical]

def name : Level → String
  | .debug => "DEBUG"
  | .info => "INFO"
  | .warning => "WARNING"
  | .error => "ERROR"
  | .critical => "CRITICAL"

def number : Level → Nat
  | .debug => 10
  | .info => 20
  | .warning => 30
  | .error => 40
  | .critical => 50

end Level

inductive Place where
  | grammar
  | evaluator
  | command
  | failures
  deriving DecidableEq

namespace Place

/-- The path of the place, as log files show it. -/
def path : Place → String
  | .grammar => "dicelang/grammar"
  | .evaluator => "dicelang/evaluator"
  | .command => "dicelang/cli"
  | .failures => "dicelang/exc"

/-- The logger that a place writes to. -/
def logger : Place → String
  | .grammar => "dicelang.grammar"
  | .evaluator => "dicelang.evaluator"
  | .command => "dicelang.cli"
  | .failures => "dicelang.exc"

end Place

structure Record where
  logger : String
  level : Level
  message : String
  place : Place
  deriving DecidableEq

/-- A record that a place writes to its own logger. -/
def Record.ofPlace (place : Place) (level : Level) (message : String) : Record :=
  ⟨place.logger, level, message, place⟩

end Dice.Log
