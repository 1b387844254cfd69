import Dice.Log.Handler

/-!
# Dice.Log.Book

Log files and the error stream, as records are written to them.

* `Book` : the files, the text on the error stream, and the handlers in use;
* `Book.start` : logging is set up, and files begin anew;
* `Book.write` : a record goes to every handler that wants it.

Nothing is written before logging is set up.
-/

namespace Dice.Log

open Dice.Path (NotFound)

structure Book where
  files : Files
  stream : String
  handlers : List Handler

namespace Book

def ofFiles (files : Files) : Book :=
  ⟨files, "", []⟩

/-! ## Setting up -/

/-- All files are opened, and then each of them is rolled over. -/
def setUp (handlers : List Handler) (b : Book) : Book :=
  let opened := handlers.foldl (fun files h => h.target.openAppend files) b.files
  ⟨handlers.foldl (fun files h => h.target.rollOver files) opened, b.stream, handlers⟩

/-- The settings files, in the order in which they are read. -/
def settingsFiles : List String := ["config.yml", "log.yml"]

/-- A settings file that is missing leaves everything as it was. -/
def start (folder : String) (missing : List String) (handlers : List Handler) (b : Book) :
    Except NotFound Book :=
  match settingsFiles.find? (fun name => missing.contains name) with
  | some name => .error ⟨Path.join folder [name]⟩
  | none => .ok (b.setUp handlers)

/-! ## Writing -/

/-- Sizes are counted in bytes, and the line that is to come in characters. -/
def isFull (files : Files) (path : String) (mostBytes : Nat) (line : String) : Bool :=
  mostBytes != 0 &&
    mostBytes ≤ ((files.find? path).getD "").utf8ByteSize + line.length + 1

def writeLine (h : Handler) (line : String) (b : Book) : Book :=
  match h.target with
  | .stream => { b with stream := b.stream ++ line ++ "\n" }
  | .file path mostBytes copies =>
    let files :=
      if isFull b.files path mostBytes line then Files.rollOver path copies b.files else b.files
    { b with files := files.append path (line ++ "\n") }

/-- The logger of the program, which passes on the records of all loggers below it. -/
def rootLogger : String := "dicelang"

def reaches (logger : String) : Bool :=
  logger == rootLogger || (rootLogger ++ ".").toList.isPrefixOf logger.toList

def write (time : String) (b : Book) (r : Record) : Book :=
  if reaches r.logger then
    (b.handlers.filter fun h => h.least ≤ r.level.number).foldl
      (fun b h => writeLine h (h.layout.line (r.entry time)) b) b
  else b

def writeAll (time : String) (b : Book) (records : List Record) : Book :=
  records.foldl (write time) b

end Book

end Dice.Log
