import Dice.Command.Basic
import Dice.Log.Book

/-!
# Dice.Command.Logged

A run of the program that writes its log files.

* `LoggedError` : a run can also fail because a settings file is missing;
* `runLogged` : logging is set up once the words are read, and then all records are written.
-/

namespace Dice.Command

open Log (Book Handler)

inductive LoggedError where
  | command (e : Error)
  | notFound (e : Path.NotFound)

def Ran.logged (time : String) (r : Ran Error) (b : Book) : Ran LoggedError × Book :=
  (⟨r.result.mapError .command, r.output, r.records⟩, b.writeAll time r.records)

/-- Words that are not read to their end leave the logs alone. -/
def runLogged (start : Book → Except Path.NotFound Book) (settings : Datum) (words : List String)
    (input : String) (now : Moment) (time : String) (b : Book) : Ran LoggedError × Book :=
  match Options.read words with
  | .error stop => (stopped stop).logged time b
  | .ok o =>
    match start b with
    | .error e => (⟨.error (.notFound e), "", []⟩, b)
    | .ok b => (perform settings o input now).logged time b

end Dice.Command
