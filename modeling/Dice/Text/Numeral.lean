import Dice.Text.Blank

/-!
# Dice.Text.Numeral

Whole numbers as text.

* `digitLimit` : the longest run of digits that is read or written as a number;
* `ofDigits` : the value of a run of plain digits;
* `decimalDigit?` : the value of a decimal digit of any script;
* `ReadError`, `readInt` : numbers as people type them, with blanks around, a sign and single
  underscores between digits;
* `numeral` : a number in plain digits;
* `writable` : whether a number is short enough to be written;
* `unwritableMessage` : what is said about a number that is not.
-/

namespace Dice.Text

/-- A number of more digits than this is neither read nor written. -/
def digitLimit : Nat := 4300

def isDigit (c : Char) : Bool :=
  '0' ≤ c && c ≤ '9'

def ofDigits (cs : List Char) : Nat :=
  cs.foldl (fun n c => 10 * n + (c.toNat - 48)) 0

/-- The zeros of the scripts that have decimal digits in Unicode 14; the digits one to nine follow
each of them. -/
def scriptZeros : List Nat := [
    0x30, 0x660, 0x6f0, 0x7c0, 0x966, 0x9e6, 0xa66, 0xae6, 0xb66, 0xbe6, 0xc66, 0xce6, 0xd66,
    0xde6, 0xe50, 0xed0, 0xf20, 0x1040, 0x1090, 0x17e0, 0x1810, 0x1946, 0x19d0, 0x1a80, 0x1a90,
    0x1b50, 0x1bb0, 0x1c40, 0x1c50, 0xa620, 0xa8d0, 0xa900, 0xa9d0, 0xa9f0, 0xaa50, 0xabf0,
    0xff10, 0x104a0, 0x10d30, 0x11066, 0x110f0, 0x11136, 0x111d0, 0x112f0, 0x11450, 0x114d0,
    0x11650, 0x116c0, 0x11730, 0x118e0, 0x11950, 0x11c50, 0x11d50, 0x11da0, 0x16a60, 0x16ac0,
    0x16b50, 0x1d7ce, 0x1d7d8, 0x1d7e2, 0x1d7ec, 0x1d7f6, 0x1e140, 0x1e2f0, 0x1e950, 0x1fbf0]

def decimalDigit? (c : Char) : Option Nat :=
  (scriptZeros.find? (fun z => z ≤ c.toNat && c.toNat < z + 10)).map (c.toNat - ·)

inductive ReadError where
  | malformed
  | tooLong (digits : Nat)
  deriving DecidableEq

/-- Blanks that may stand around a number; the four separators of plain text are not among them. -/
def isPadding (c : Char) : Bool :=
  isBlank c && !('\x1c' ≤ c && c ≤ '\x1f')

/-- The digits at the front, in order, with what follows them. An underscore stands between two
digits only. -/
def readDigits : List Char → Option (List Nat × List Char)
  | [] => some ([], [])
  | '_' :: c :: rest =>
    match decimalDigit? c with
    | none => none
    | some d => (readDigits rest).map fun (digits, rest) => (d :: digits, rest)
  | c :: rest =>
    match decimalDigit? c with
    | none => if c == '_' then none else some ([], c :: rest)
    | some d => (readDigits rest).map fun (digits, rest) => (d :: digits, rest)

/-- The first character is a digit. A number too long is refused for that even if something else
than blanks follows it. -/
def readNat (cs : List Char) : Except ReadError Nat :=
  if cs.head? = some '_' then .error .malformed
  else match readDigits cs with
    | none | some ([], _) => .error .malformed
    | some (digits, rest) =>
      if digitLimit < digits.length then .error (.tooLong digits.length)
      else if rest.all isPadding then .ok (digits.foldl (fun n d => 10 * n + d) 0)
      else .error .malformed

/-- Blanks around the number are passed over; one sign may stand directly before it. -/
def readInt (text : String) : Except ReadError Int :=
  match text.toList.dropWhile isPadding with
  | '-' :: digits => (readNat digits).map (fun n => -(n : Int))
  | '+' :: digits => (readNat digits).map (fun n => (n : Int))
  | digits => (readNat digits).map (fun n => (n : Int))

def numeral (n : Int) : List Char :=
  if n < 0 then '-' :: Nat.toDigits 10 n.natAbs else Nat.toDigits 10 n.natAbs

/-- The number of decimal digits is within the limit. -/
def writable (n : Int) : Bool :=
  n.natAbs < Nat.pow 10 digitLimit

def unwritableMessage : String :=
  "Exceeds the limit (" ++ toString digitLimit ++ " digits) for integer string conversion; " ++
    "use sys.set_int_max_str_digits() to increase the limit"

end Dice.Text
