import Dice.Datum
import Dice.Log.Files
import Dice.Log.Layout
import Dice.Path

/-!
# Dice.Log.Handler

Where records go, from which level on, and how they look.

* `Target` : the error stream, or a file that is rolled over;
* `Handler`, `standardHandlers` : a target with a level and a layout, and those of this program;
* `Handler.set`, `handlersWith` : handlers with settings changed by name.
-/

namespace Dice.Log

/-- A file that would grow to `mostBytes` is rolled over first; zero means that it never is. -/
inductive Target where
  | stream
  | file (path : String) (mostBytes copies : Nat)

namespace Target

def openAppend : Target → Files → Files
  | .stream, files => files
  | .file path _ _, files => files.openAppend path

def rollOver : Target → Files → Files
  | .stream, files => files
  | .file path _ copies, files => Files.rollOver path copies files

end Target

structure Handler where
  target : Target
  least : Nat
  layout : Layout

/-- Errors go to the error stream. One file holds everything, another one errors. -/
def standardHandlers (folder : String) : List (String × Handler) :=
  let file (name : String) : Target := .file (Path.join folder [name]) 10485760 3
  [("err_stream", ⟨.stream, Level.error.number, .brief⟩),
    ("main", ⟨file "main.log", Level.debug.number, .full⟩),
    ("err", ⟨file "errors.log", Level.error.number, .full⟩)]

/-! ## Settings -/

/-- A level by its name or its number. -/
def levelNumber? : Datum → Option Nat
  | .text "NOTSET" => some 0
  | .text "WARN" => some Level.warning.number
  | .text "FATAL" => some Level.critical.number
  | .text name => (Level.all.find? fun l => l.name == name).map Level.number
  | d => d.integer?.map Int.toNat

def layouts : List (String × Layout) := [("brief", .brief), ("custom", .full)]

def count (value : Datum) : Nat :=
  (value.integer?.getD 0).toNat

/-- Settings that the handler does not have are passed over. -/
def Handler.set (h : Handler) (key : String) (value : Datum) : Handler :=
  match key, h.target with
  | "level", _ => { h with least := (levelNumber? value).getD h.least }
  | "formatter", _ => { h with layout := (layouts.lookup value.display).getD h.layout }
  | "filename", .file _ mostBytes copies =>
    { h with target := .file value.display mostBytes copies }
  | "maxBytes", .file path _ copies => { h with target := .file path (count value) copies }
  | "backupCount", .file path mostBytes _ => { h with target := .file path mostBytes (count value) }
  | _, _ => h

/-- The name of a setting is that of its handler, a point, and its key. -/
def keyOf? (handler setting : String) : Option String :=
  let start := (handler ++ ".").toList
  if start.isPrefixOf setting.toList then some (String.ofList (setting.toList.drop start.length))
  else none

def handlersWith (folder : String) (settings : List (String × Datum)) : List Handler :=
  (standardHandlers folder).map fun named =>
    settings.foldl (fun h setting =>
      match keyOf? named.1 setting.1 with
      | some key => h.set key setting.2
      | none => h) named.2

end Dice.Log
