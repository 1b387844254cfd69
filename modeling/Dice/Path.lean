import Dice.Text.Quoted

/-!
# Dice.Path

Paths of files, as text with slashes.

* `join` : a path and parts below it;
* `parent` : the path without its last part;
* `normal`, `absolute` : the shortest spelling of a path, seen from a folder;
* `NotFound` : there is no file at a path.
-/

namespace Dice.Path

def slash : Char := '/'

def isAbsolute (p : List Char) : Bool :=
  p.head? == some slash

/-! ## Parts -/

/-- One slash stands between two parts, unless the first ends in one or is empty. An absolute part
discards what stands before it. -/
def appendPart (path part : List Char) : List Char :=
  if isAbsolute part then part
  else if path.isEmpty || path.getLast? == some slash then path ++ part
  else path ++ slash :: part

def join (base : String) (parts : List String) : String :=
  String.ofList (parts.foldl (fun path part => appendPart path part.toList) base.toList)

/-- Slashes at the end of the parent are left out, unless it has nothing else. -/
def parentChars (p : List Char) : List Char :=
  let upToSlash := p.reverse.dropWhile (· != slash)
  if upToSlash.all (· == slash) then upToSlash else (upToSlash.dropWhile (· == slash)).reverse

def parent (p : String) : String :=
  String.ofList (parentChars p.toList)

/-! ## Normal paths -/

def components : List Char → List (List Char)
  | [] => [[]]
  | c :: cs =>
    if c = slash then [] :: components cs
    else
      match components cs with
      | [] => [[c]]
      | part :: parts => (c :: part) :: parts

/-- The components so far are given from the last to the first. Going up removes the last one, if
there is one to go up from; nothing is above the root. -/
def addComponent (rooted : Bool) (done : List (List Char)) (part : List Char) : List (List Char) :=
  if part = [] ∨ part = ['.'] then done
  else if part = ['.', '.'] then
    match done with
    | [] => if rooted then [] else [part]
    | last :: rest => if last = ['.', '.'] then part :: done else rest
  else part :: done

/-- Two slashes at the start, and no more, are kept. -/
def rootOf : List Char → List Char
  | ['/', '/'] => ['/', '/']
  | '/' :: '/' :: c :: _ => if c = slash then [slash] else ['/', '/']
  | '/' :: _ => [slash]
  | _ => []

def normalChars (p : List Char) : List Char :=
  let root := rootOf p
  let parts := ((components p).foldl (addComponent (!root.isEmpty)) []).reverse
  let path := root ++ [slash].intercalate parts
  if path.isEmpty then ['.'] else path

def normal (p : String) : String :=
  String.ofList (normalChars p.toList)

def absolute (here p : String) : String :=
  normal (join here [p])

/-! ## Absence -/

structure NotFound where
  path : String

def NotFound.message (e : NotFound) : String :=
  "[Errno 2] No such file or directory: " ++ Text.quoted e.path

end Dice.Path
