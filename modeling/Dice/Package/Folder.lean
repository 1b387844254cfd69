import Dice.Path
import Dice.Text.Wildcard

/-!
# Dice.Package.Folder

What is in a folder and below it.

* `Folder` : files and folders, each by the names that lead to it;
* `Folder.ofPaths` : a folder with given files and folders in it;
* `Folder.search` : all files whose names fit a pattern;
* `Folder.visible` : names directly in the folder that fit a pattern.

Names are in the order of their code points.
-/

namespace Dice.Package

/-- Every folder that holds something is among the folders, and so is the one that holds all. -/
structure Folder where
  files : List (List String)
  folders : List (List String)

namespace Folder

def sorted {α : Type} [LT α] [DecidableLT α] (items : List α) : List α :=
  items.mergeSort fun a b => !decide (b < a)

def namesOf (path : String) : List String :=
  (Path.components path.toList).map String.ofList

/-- The folders on the way to something, from the outermost on. -/
def above (names : List String) : List (List String) :=
  (List.range names.length).map names.take

def ofPaths (files folders : List String) : Folder :=
  let files := (files.map namesOf).eraseDups
  let folders := folders.map namesOf
  ⟨files, ([] :: (files.flatMap above ++ folders.flatMap above ++ folders)).eraseDups⟩

/-- The names of the files directly in one of the folders. -/
def filesIn (f : Folder) (folder : List String) : List String :=
  sorted ((f.files.filter fun names => names.dropLast == folder).filterMap List.getLast?)

/-- A folder comes before those in it, and all of these before the next folder beside it. -/
def visited (f : Folder) : List (List String) :=
  sorted f.folders

/-- The files of a folder come before those of the folders in it. -/
def search (f : Folder) (here pattern : String) : List String :=
  f.visited.flatMap fun folder =>
    ((f.filesIn folder).filter (Text.matchesPattern pattern)).map fun name =>
      Path.join here (folder ++ [name])

/-- Names that start with a point are hidden. -/
def isHidden (name : String) : Bool :=
  name.toList.head? == some '.'

/-- Files and folders alike. -/
def visible (f : Folder) (pattern : String) : List String :=
  let names := (f.files ++ f.folders).filterMap fun names =>
    match names with
    | [name] => some name
    | _ => none
  sorted (names.filter fun name => !isHidden name && Text.matchesPattern pattern name)

end Folder

end Dice.Package
