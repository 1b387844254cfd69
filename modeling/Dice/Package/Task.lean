import Dice.Package.Dialogue
import Dice.Package.Folder
import Dice.Text.Blank
import Dice.Text.ShellWords

/-!
# Dice.Package.Task

The tasks around the package: cleaning up, installing what it depends on, testing, and measuring
what the tests reach.

* `Programs` : what the programs do that a task starts;
* `Start` : one start of a program, as it is noted;
* `Job` : a computation that prints, asks and starts programs, and may come to a halt;
* `Task.job` : what each task does.
-/

namespace Dice.Package

/-! ## Programs -/

/-- What programs do is known from outside: what the test program says of its version, which
programs are not there, which fail, and whether waiting for one takes too long. -/
structure Programs where
  versionText : String
  absent : List String
  failing : List String
  slow : Bool

/-- A program runs beside the task, or the task waits for its end, and may insist on success. -/
inductive Way where
  | beside
  | awaited
  | insisted

inductive Output where
  | shown
  | discarded
  | file

/-- The waiting for a program that runs beside the task may have a limit in seconds. -/
structure Start where
  way : Way
  words : List String
  folder : String
  output : Output
  waited : Option (Option Nat)

/-! ## Jobs -/

/-- Why a job ends before its end. -/
inductive Halt where
  | exit (status : Nat)
  | ask (e : AskError)
  | words (e : Text.WordsError)
  | notFound (e : Path.NotFound)

structure Work where
  dialogue : Dialogue
  starts : List Start
  folder : String

/-- Where a job works: what is in its folder, where the package and temporary files are, and the
programs. -/
structure Site where
  contents : Folder
  root : String
  temporary : String
  programs : Programs

/-- A job that halts keeps what was done before. -/
abbrev Job (α : Type) : Type :=
  ExceptT Halt (StateM Work) α

namespace Job

def halt {α : Type} (h : Halt) : Job α :=
  throw h

def printLine (line : String) : Job Unit :=
  modify fun w => { w with dialogue := w.dialogue.print (line ++ "\n") }

def ask (question : String) : Job String := do
  let w ← get
  let (answer, dialogue) := w.dialogue.ask question
  set { w with dialogue := dialogue }
  match answer with
  | .ok line => pure line
  | .error e => halt (.ask e)

def wordsOf (command : String) : Job (List String) :=
  match Text.shellWords command with
  | .ok words => pure words
  | .error e => halt (.words e)

/-- A program that is not there is noted too, but nobody waits for it. -/
def start (site : Site) (way : Way) (command : String) (output : Output)
    (waited : Option (Option Nat)) : Job String := do
  let words ← wordsOf command
  let program := words.headD ""
  let absent := site.programs.absent.contains program
  let waited := if absent then none else waited
  modify fun w => { w with starts := w.starts ++ [⟨way, words, w.folder, output, waited⟩] }
  if absent then halt (.notFound ⟨program⟩)
  pure program

def call (site : Site) (command : String) : Job Unit := do
  let _ ← start site .awaited command .shown none

/-- The job works in another folder, and comes back also if it halts. -/
def within {α : Type} (folder : String) (job : Job α) : Job α :=
  fun w =>
    let (result, after) := job { w with folder := folder }
    (result, { after with folder := w.folder })

end Job

/-! ## Tasks -/

open Job

/-- An answer that starts with a small y. -/
def agrees (answer : String) : Bool :=
  answer.toList.head? == some 'y'

/-- What was typed, without blanks around it and in either case. -/
def typedAgrees (line : String) : Bool :=
  match (Text.trim line.toList).head? with
  | some c => c == 'y' || c == 'Y'
  | none => false

def confirmation : String := "OK? y/n  "

/-- Compiled files anywhere below the folder, and eggs directly in it. -/
def cleanCommand (site : Site) (here : String) : String :=
  let spaced (names : List String) := " ".intercalate names
  "rm -vrf .eggs .tox build dist " ++ spaced (site.contents.search here "*.pyc") ++ " " ++
    spaced (site.contents.visible "*.egg-info" ++ site.contents.visible "*.egg")

def clean (site : Site) : Job Unit := do
  let command := cleanCommand site (← get).folder
  printLine ("Executing: " ++ command)
  if typedAgrees (← ask confirmation) then call site command

def runtimeNeeds : List String := ["numpy", "pyyaml"]

def testNeeds : List String := ["coverage", "flake8", "mock", "pylint", "pytest", "pytest-cov"]

/-- Seconds that an installation may take. -/
def patience : Nat := 150

/-- An answer given beforehand counts as it stands; an empty one is none. -/
def deps (site : Site) (force : Option String) : Job Unit := do
  printLine "Installing/Upgrading runtime & testing dependencies"
  let command := "pip install -U " ++ " ".intercalate (runtimeNeeds ++ testNeeds)
  printLine ("Executing: " ++ command)
  let agreed ←
    match force with
    | some answer =>
      if answer.isEmpty then typedAgrees <$> ask confirmation else pure (agrees answer)
    | none => typedAgrees <$> ask confirmation
  if agreed then
    let output := if (← get).dialogue.assumeYes then Output.discarded else .shown
    let _ ← start site .beside command output (some (some patience))
    if site.programs.slow then
      printLine ("Deps installation took over " ++ toString patience ++
        " seconds, something is wrong.")

/-- The task cannot go on before its needs are installed. -/
def missingNeeds {α : Type} : Job α := do
  printLine "Please run: python setup.py deps"
  halt (.exit 1)

def checkTestProgram (site : Site) : Job Unit := do
  let _ ← start site .beside "py.test --version" .file (some none)
  if !Text.matchesPattern "*pytest-cov*" site.programs.versionText then missingNeeds

def testCommand : String := "py.test --cov=dicelang"

def test (site : Site) : Job Unit := do
  checkTestProgram site
  within site.root (call site testCommand)

def coverage (site : Site) : Job Unit := do
  checkTestProgram site
  let program ← start site .insisted "coverage --version" .shown none
  if site.programs.failing.contains program then missingNeeds
  let report := Path.join site.temporary ["diceLangCoverage"]
  within site.root do
    call site testCommand
    call site ("coverage html -d " ++ report)
    call site ("xdg-open " ++ Path.join report ["index.html"])

inductive Task where
  | clean
  | deps
  | test
  | coverage

namespace Task

def all : List Task := [.clean, .coverage, .deps, .test]

def name : Task → String
  | .clean => "clean"
  | .deps => "deps"
  | .test => "test"
  | .coverage => "coverage"

def title : Task → String
  | .clean => "Clean"
  | .deps => "InstallDeps"
  | .test => "Test"
  | .coverage => "Coverage"

/-- Options with their explanations. The sign at the end says that one takes a value. -/
def options : Task → List (String × String)
  | .deps => [("force=", "Bypass prompt.")]
  | _ => []

def job (site : Site) (force : Option String) : Task → Job Unit
  | .clean => Package.clean site
  | .deps => Package.deps site force
  | .test => Package.test site
  | .coverage => Package.coverage site

end Task

end Dice.Package
