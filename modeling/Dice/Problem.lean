import Dice.Datum
import Dice.Grammar
import Dice.Log.Record

/-!
# Dice.Problem

The problems that the program reports, sorted into classes.

* `Problem.Kind` : the classes, each below a broader one;
* `Problem.describe` : a problem made of its parts, given in order or by name;
* `Problem.report` : the text that is written to a log, with the notation that led to the problem;
* `chooseMethod` : how it is written, by the level of the problem if the log has a method for it.
-/

namespace Dice

namespace Problem

/-- Users make mistakes; internal problems are mistakes of the program. -/
inductive Kind where
  | general
  | user
  | usage
  | helpWanted
  | invalidText
  | configuration
  | internal
  | evaluation
  | comparison
  deriving DecidableEq

namespace Kind

def all : List Kind :=
  [.general, .user, .usage, .helpWanted, .invalidText, .configuration, .internal, .evaluation,
    .comparison]

def name : Kind → String
  | .general => "DiceException"
  | .user => "UserException"
  | .usage => "ArgumentParseError"
  | .helpWanted => "ArgumentHelpError"
  | .invalidText => "InvalidNotation"
  | .configuration => "ConfigurationError"
  | .internal => "InternalException"
  | .evaluation => "EvaluationError"
  | .comparison => "InvalidComparisonOperator"

/-- The class itself and all broader ones, the narrowest first. -/
def lineage : Kind → List Kind
  | .general => [.general]
  | .user => [.user, .general]
  | .usage => [.usage, .user, .general]
  | .helpWanted => [.helpWanted, .user, .general]
  | .invalidText => [.invalidText, .user, .general]
  | .configuration => [.configuration, .user, .general]
  | .internal => [.internal, .general]
  | .evaluation => [.evaluation, .internal, .general]
  | .comparison => [.comparison, .internal, .general]

def isInternal (k : Kind) : Bool :=
  k.lineage.contains .internal

/-- A setting out of range is also a wrong value. -/
def isWrongValue (k : Kind) : Bool :=
  k = .configuration

/-- The class that lays down of which parts a problem is made. -/
def describer : Kind → Kind
  | .invalidText => .invalidText
  | k => if k.isInternal then .internal else .general

end Kind

/-! ## Parts -/

/-- A part that has no default has to be given. -/
structure Part where
  name : String
  default : Option Datum

def parts (k : Kind) : List Part :=
  match k.describer with
  | .invalidText => [⟨"notation", none⟩, ⟨"position", some (.int 0)⟩, ⟨"reason", some .null⟩]
  | .internal => [⟨"msg", none⟩, ⟨"lvl", some (.text "exception")⟩]
  | _ => [⟨"msg", some .null⟩, ⟨"lvl", some (.text "info")⟩]

/-- Why parts do not describe a problem. -/
inductive PartsError where
  | unknown (k : Kind) (name : String)
  | repeated (k : Kind) (name : String)
  | tooMany (k : Kind) (given : Nat)
  | missing (k : Kind) (name : String)

namespace PartsError

def subject (k : Kind) : String :=
  k.describer.name ++ ".__init__()"

def message : PartsError → String
  | .unknown k name =>
    subject k ++ " got an unexpected keyword argument " ++ Text.quoted name
  | .repeated k name => subject k ++ " got multiple values for argument " ++ Text.quoted name
  | .tooMany k given =>
    let most := (parts k).length + 1
    let least := ((parts k).filter fun p => p.default.isNone).length + 1
    subject k ++ " takes from " ++ toString least ++ " to " ++ toString most ++
      " positional arguments but " ++ toString (given + 1) ++ " were given"
  | .missing k name =>
    subject k ++ " missing 1 required positional argument: " ++ Text.quoted name

end PartsError

/-- The first name that is none of the parts, or is that of a part already given in order. -/
def checkNames (k : Kind) (inOrder : Nat) : List (String × Datum) → Except PartsError Unit
  | [] => .ok ()
  | (name, _) :: named =>
    match (parts k).findIdx? (fun p => p.name == name) with
    | none => .error (.unknown k name)
    | some place =>
      if place < inOrder then .error (.repeated k name) else checkNames k inOrder named

/-- The values of the parts: those given in order, then those given by name, then the defaults. -/
def fill (k : Kind) (named : List (String × Datum)) :
    List Datum → List Part → Except PartsError (List Datum)
  | _, [] => .ok []
  | value :: values, _ :: rest => (fill k named values rest).map (value :: ·)
  | [], part :: rest =>
    match Datum.find? part.name named, part.default with
    | some value, _ => (fill k named [] rest).map (value :: ·)
    | none, some value => (fill k named [] rest).map (value :: ·)
    | none, none => .error (.missing k part.name)

def values (k : Kind) (inOrder : List Datum) (named : List (String × Datum)) :
    Except PartsError (List Datum) :=
  match checkNames k inOrder.length named with
  | .error e => .error e
  | .ok () =>
    if (parts k).length < inOrder.length then .error (.tooMany k inOrder.length)
    else fill k named inOrder (parts k)

end Problem

/-- Only a text that is no notation has a position. -/
structure Problem where
  kind : Problem.Kind
  message : String
  level : Datum
  position : Option Datum

namespace Problem

def invalidText (text position reason : Datum) : Problem where
  kind := .invalidText
  message := "Invalid roll format: " ++ text.dump ++ ", stopped at position " ++
    position.display ++ "." ++
    (if reason.truthy then " Expected " ++ reason.display ++ "." else "")
  level := .text "info"
  position := some position

def describe (k : Kind) (inOrder : List Datum) (named : List (String × Datum)) :
    Except PartsError Problem :=
  match values k inOrder named with
  | .error e => .error e
  | .ok [text, position, reason] => .ok (invalidText text position reason)
  | .ok values =>
    .ok ⟨k, (values[0]?.getD Datum.null).display, values[1]?.getD Datum.null, none⟩

/-! ## Reports -/

/-- The class and the message, and below a rule the notation with its length. -/
def report (className message text : String) : String :=
  "\n" ++ className ++ ": " ++ message ++ "\n" ++ String.ofList (List.replicate 20 '=') ++ "\n" ++
    "Notation: " ++ text ++ "\n    Length: " ++ toString text.length

/-- Methods are looked up by name, and a log has only some. -/
inductive MethodError where
  | missing (name : String)
  | noName (className : String)

/-- The problem's own level comes first, then the one asked for, which the log must have. -/
def chooseMethod (available : List String) (own : Option Datum) (asked : String) :
    Except MethodError String :=
  if available.contains asked then
    match own with
    | none => .ok asked
    | some (.text name) => .ok (if available.contains name then name else asked)
    | some d => .error (.noName d.className)
  else .error (.missing asked)

/-- The ways in which a log can be written to. The last one also tells which problem is being
handled at the time. -/
def methods : List (String × Log.Level) := [
  ("debug", .debug), ("info", .info), ("warning", .warning), ("warn", .warning),
  ("error", .error), ("critical", .critical), ("fatal", .critical), ("exception", .error)]

/-- What the method that tells of the problem being handled adds if there is none. -/
def nothingHandled : String := "\nNoneType: None"

/-- The record that a report becomes on a log with all methods. -/
def record (logger method text : String) : Log.Record :=
  ⟨logger, (methods.lookup method).getD .info,
    if method = "exception" then text ++ nothingHandled else text, .failures⟩

end Problem

end Dice
