import Dice.Command.Options
import Dice.Release

/-!
# Dice.Command.Usage

What is said where words are not read to their end.

* `helpText` : the way in which the program is used;
* `Stop.message?`, `Stop.output`, `Stop.status` : what is printed, and the status of the program.
-/

namespace Dice.Command

def helpLines : List String := [
  "usage: diceLang [-h] [-d] [-s SEED] [-t TIMES] [-v] [notation ...]",
  "",
  "Roll dice written in dice notation, i.e. 3d6kh2!=6+1d4-3",
  "",
  "positional arguments:",
  "  notation              The roll, joined with spaces when split.",
  "",
  "options:",
  "  -h, --help            show this help message and exit",
  "  -d, --detailed        Print every event drawn.",
  "  -s SEED, --seed SEED  Seed the random source.",
  "  -t TIMES, --times TIMES",
  "                        Roll this many times.",
  "  -v, --version         show program's version number and exit"]

def helpText : String :=
  String.join (helpLines.map (· ++ "\n"))

namespace Stop

/-- The version is shown without a message. -/
def message? : Stop → Option String
  | .help => some helpText
  | .version => none
  | .ambiguous word candidates =>
    some ("ambiguous option: " ++ word ++ " could match " ++
      ", ".intercalate (candidates.map fun f => "--" ++ f.word))
  | .wrongValue f fault => some ("argument " ++ f.names ++ ": " ++ fault.message)
  | .unrecognized words => some ("unrecognized arguments: " ++ " ".intercalate words)

def output (s : Stop) : String :=
  s.message?.getD Release.version ++ "\n"

/-- Asking for help or the version is no mistake. -/
def status : Stop → Nat
  | .help | .version => 0
  | _ => 2

end Stop

end Dice.Command
