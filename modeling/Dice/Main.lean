import Dice.Command.Logged
import Std.Time.DateTime.Timestamp

/-!
# Dice.Main

The program on a real terminal, with a real clock and real log files. All decisions are made in
`Dice.Command`; here lines are read, texts are printed, and files are kept in step with the book of
the logs.
-/

namespace Dice.Terminal

open Log (Book Files)

def logFolder : String := "/tmp/dicelang"

def handlers : List Log.Handler :=
  (Log.standardHandlers logFolder).map Prod.snd

/-- The paths that a handler may write to. -/
def pathsOf (h : Log.Handler) : List String :=
  match h.target with
  | .stream => []
  | .file path _ copies => path :: (List.range copies).map fun n => Files.copyPath path (n + 1)

def paths : List String :=
  handlers.flatMap pathsOf

def now : IO Moment := do
  let stamp ← Std.Time.Timestamp.now
  pure (Moment.ofMicroseconds (stamp.toNanosecondsSinceUnixEpoch.val / 1000))

/-- A file that cannot be read counts as missing. -/
def readFiles : IO Files := do
  let mut files : Files := []
  for path in paths do
    try files := files.put path (← IO.FS.readFile path)
    catch _ => pure ()
  pure files

/-- What the logs hold is written out, and what they no longer hold is removed. -/
def save (old : Book) (new : Book) : IO Unit := do
  for path in paths do
    match new.files.find? path with
    | some text =>
      if old.files.find? path != some text then IO.FS.writeFile path text
    | none =>
      if (old.files.find? path).isSome then IO.FS.removeFile path
  IO.eprint (String.ofList (new.stream.toList.drop old.stream.length))

def keep (b : Book) (records : List Log.Record) : IO Book := do
  let written := b.writeAll (← now).text records
  save b written
  pure written

def openBook : IO Book := do
  IO.FS.createDirAll logFolder
  let b := Book.ofFiles (← readFiles)
  let ready := b.setUp handlers
  save b ready
  pure ready

def putOut (text : String) : IO Unit := do
  let out ← IO.getStdout
  out.putStr text
  out.flush

def fail (message : String) : IO UInt32 := do
  IO.eprintln message
  pure 1

def lineOf (read : String) : String :=
  if read.endsWith "\n" then (read.dropEnd 1).toString else read

partial def converse (limits : Limits) (o : Command.Options) (source : Source) (b : Book) :
    IO UInt32 := do
  putOut Command.prompt
  let read ← (← IO.getStdin).getLine
  if read.isEmpty then
    putOut "\n"
    pure 0
  else
    let answered := Command.answerLine limits o (lineOf read) source
    let b ← keep b answered.records
    match answered.result with
    | .ok text =>
      putOut text
      converse limits o answered.source b
    | .error e => fail e.message

def perform (o : Command.Options) : IO UInt32 := do
  let b ← openBook
  let seed := Command.seedOf o (← now)
  let b ← keep b [Command.seedRecord seed]
  match Settings.limitsFrom Settings.shipped with
  | .error e => fail (Command.Error.message (.settings e))
  | .ok limits =>
    if o.words.isEmpty then converse limits o (.ofSeed seed) b
    else
      let ran := Command.once limits o (Source.ofSeed seed)
      let _ ← keep b ran.records
      putOut ran.output
      match ran.result with
      | .ok status => pure (UInt32.ofNat status)
      | .error e => fail e.message

def run (words : List String) : IO UInt32 :=
  match Command.Options.read words with
  | .ok o => perform o
  | .error stop => do
    putOut stop.output
    pure (UInt32.ofNat stop.status)

end Dice.Terminal

def main (words : List String) : IO UInt32 :=
  Dice.Terminal.run words
