/-!
# Dice.Log.Files

Files by path, and what logs do with them.

* `Files` : the text of every file;
* `find?`, `put`, `erase`, `rename` : single files;
* `openAppend` : a file is there after it was opened;
* `rollOver` : a file that has grown moves into a row of numbered copies.
-/

namespace Dice.Log

/-- No path stands twice. -/
abbrev Files : Type :=
  List (String × String)

namespace Files

def find? (files : Files) (path : String) : Option String :=
  files.lookup path

def erase (files : Files) (path : String) : Files :=
  files.filter fun file => file.1 != path

def put (files : Files) (path text : String) : Files :=
  (path, text) :: files.erase path

/-- A file that is not there is not renamed; one that is in the way is replaced. -/
def rename (files : Files) (path newPath : String) : Files :=
  match files.find? path with
  | none => files
  | some text => (files.erase path).put newPath text

/-- Opening a file leaves its text, and makes an empty one if there is none. -/
def openAppend (files : Files) (path : String) : Files :=
  files.put path ((files.find? path).getD "")

def append (files : Files) (path text : String) : Files :=
  files.put path ((files.find? path).getD "" ++ text)

def copyPath (path : String) (number : Nat) : String :=
  path ++ "." ++ toString number

/-- Every copy from the given number down to the first moves on by one. -/
def shiftCopies (path : String) : Nat → Files → Files
  | 0, files => files
  | number + 1, files =>
    shiftCopies path number
      (files.rename (copyPath path (number + 1)) (copyPath path (number + 2)))

/-- The file becomes the first of its copies, of which so many are kept, and a new one is opened.
Where no copies are kept, the file stays as it is. -/
def rollOver (path : String) (copies : Nat) (files : Files) : Files :=
  if copies = 0 then files.openAppend path
  else ((shiftCopies path (copies - 1) files).rename path (copyPath path 1)).openAppend path

end Files

end Dice.Log
