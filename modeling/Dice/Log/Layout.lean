import Dice.Log.Record
import Dice.Text.Removal

/-!
# Dice.Log.Layout

The lines in which records are written.

* `Entry` : what a line can tell of a record;
* `Layout` : what a line tells, and in which order;
* `Layout.template`, `Layout.line` : a layout in the notation of settings files, and a line.
-/

namespace Dice.Log

/-- The place is named by the path of its file below the root. -/
structure Entry where
  level : String
  place : String
  time : String
  message : String

def Record.entry (r : Record) (time : String) : Entry :=
  ⟨r.level.name, r.place.path, time, r.message⟩

/-- A path below the root loses the root, wherever it stands, and the three characters of its
ending. -/
def placeOf (root path : String) : String :=
  let below := (Text.removed (root ++ "/") path).toList
  String.ofList (below.take (below.length - 3))

inductive Field where
  | literal (text : String)
  | level
  | place
  | time
  | message

abbrev Layout : Type :=
  List Field

namespace Field

def template : Field → String
  | .literal text => text
  | .level => "%(levelname)-7s"
  | .place => "%(relmod)s"
  | .time => "%(asctime)s"
  | .message => "%(message)s"

/-- Names of levels are filled up to the width of most of them. -/
def text (e : Entry) : Field → String
  | .literal text => text
  | .level => Text.padRight 7 e.level
  | .place => e.place
  | .time => e.time
  | .message => e.message

end Field

namespace Layout

def brief : Layout :=
  [.literal "[", .level, .literal "] ", .message]

/-- A line without a time. -/
def placed : Layout :=
  [.literal "[", .level, .literal "] ", .place, .literal " | ", .message]

def full : Layout :=
  [.literal "[", .level, .literal "] ", .place, .literal " | ", .time, .literal " | ", .message]

def template (l : Layout) : String :=
  String.join (l.map Field.template)

def line (l : Layout) (e : Entry) : String :=
  String.join (l.map (Field.text e))

end Layout

end Dice.Log
