import Dice.Decimal.Shortest
import Dice.Text.Dump
import Dice.Text.Numeral
import Dice.Text.Quoted

/-!
# Dice.Datum

Values as settings files and callers give them.

* `Datum` : nothing, truth values, numbers, texts, lists and maps with text keys;
* `Datum.dump`, `Datum.display` : a value in a message, and a value as plain text;
* `Datum.writable` : whether every number in it is short enough to be written;
* `Datum.same` : equality, with truth values as the numbers zero and one.
-/

namespace Dice

inductive Datum where
  | null
  | bool (b : Bool)
  | int (n : Int)
  | float (x : Float)
  | text (s : String)
  | list (items : List Datum)
  | map (entries : List (String × Datum))
  deriving Inhabited

namespace Datum

/-- Numbers from a ten thousandth up to sixteen digits are written plainly. -/
def floatLayout : Decimal.Layout where
  leastPlain := -4
  mostPlain := 15
  exponentWidth := 2
  infinity := "inf"
  undefined := "nan"

mutual

def dump : Datum → String
  | .null => "None"
  | .bool b => Text.truth b
  | .int n => toString n
  | .float x => floatLayout.write x
  | .text s => Text.quoted s
  | .list items => Text.list (dumpAll items)
  | .map entries => "\x7b" ++ Text.commaSeparated (dumpEntries entries) ++ "\x7d"
termination_by structural d => d

def dumpAll : List Datum → List String
  | [] => []
  | d :: ds => d.dump :: dumpAll ds
termination_by structural ds => ds

def dumpEntries : List (String × Datum) → List String
  | [] => []
  | (key, d) :: entries => (Text.quoted key ++ ": " ++ d.dump) :: dumpEntries entries
termination_by structural entries => entries

end

mutual

def writable : Datum → Bool
  | .int n => Text.writable n
  | .list items => writableAll items
  | .map entries => writableEntries entries
  | .null | .bool _ | .float _ | .text _ => true
termination_by structural d => d

def writableAll : List Datum → Bool
  | [] => true
  | d :: ds => d.writable && writableAll ds
termination_by structural ds => ds

def writableEntries : List (String × Datum) → Bool
  | [] => true
  | (_, d) :: entries => d.writable && writableEntries entries
termination_by structural entries => entries

end

/-- A text stands for itself; everything else is written out. -/
def display : Datum → String
  | .text s => s
  | d => d.dump

def className : Datum → String
  | .null => "NoneType"
  | .bool _ => "bool"
  | .int _ => "int"
  | .float _ => "float"
  | .text _ => "str"
  | .list _ => "list"
  | .map _ => "dict"

def isList : Datum → Bool
  | .list _ => true
  | _ => false

/-- Only nothing, false, zero and what holds nothing count as false. -/
def truthy : Datum → Bool
  | .null => false
  | .bool b => b
  | .int n => n != 0
  | .float x => x != 0
  | .text s => !s.isEmpty
  | .list items => !items.isEmpty
  | .map entries => !entries.isEmpty

/-- The integer that a truth value or an integer is. -/
def integer? : Datum → Option Int
  | .bool b => some (if b then 1 else 0)
  | .int n => some n
  | _ => none

def find? (key : String) (entries : List (String × Datum)) : Option Datum :=
  entries.lookup key

def sameNumber (a b : Datum) : Bool :=
  match a, b with
  | .float x, .float y => x == y
  | .float x, b => match b.integer? with
    | some n => Decimal.integer? x == some n
    | none => false
  | a, .float y => match a.integer? with
    | some n => Decimal.integer? y == some n
    | none => false
  | a, b => match a.integer?, b.integer? with
    | some m, some n => m == n
    | _, _ => false

mutual

/-- Maps are the same if they have the same entries in any order. -/
def same : Datum → Datum → Bool
  | .null, .null => true
  | .text s, .text t => s == t
  | .list items, .list items' => sameAll items items'
  | .map entries, .map entries' => entries.length == entries'.length && within entries entries'
  | a, b => sameNumber a b
termination_by structural a => a

def sameAll : List Datum → List Datum → Bool
  | [], [] => true
  | a :: as, b :: bs => same a b && sameAll as bs
  | _, _ => false
termination_by structural as => as

def within : List (String × Datum) → List (String × Datum) → Bool
  | [], _ => true
  | (key, a) :: entries, others =>
    match find? key others with
    | some b => same a b && within entries others
    | none => false
termination_by structural entries => entries

end

end Datum

end Dice
