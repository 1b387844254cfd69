import Dice.Text.Printable

/-!
# Dice.Text.Quoted

A text between quotes, as messages and tree dumps show it.

* `quoteMark` : the quote that a text gets;
* `escape` : how one character stands inside the quotes;
* `quoted` : the whole.
-/

namespace Dice.Text

/-- A text stands in single quotes, unless it holds a single quote and no double quote. -/
def quoteMark (cs : List Char) : Char :=
  if cs.contains '\x27' && !cs.contains '"' then '"' else '\x27'

/-- The lower case hexadecimal digits of a code point, filled up to a width with zeros. -/
def hexDigits (width : Nat) (n : Nat) : List Char :=
  let digits := Nat.toDigits 16 n
  List.replicate (width - digits.length) '0' ++ digits

/-- A backslash and the quote in use get a backslash in front; new lines, returns and tabs have
names; every other character without a printed form is written by its code point, in two, four
or eight digits. -/
def escape (mark c : Char) : List Char :=
  if c == mark || c == '\\' then ['\\', c]
  else if c == '\n' then ['\\', 'n']
  else if c == '\r' then ['\\', 'r']
  else if c == '\t' then ['\\', 't']
  else if isPrintable c then [c]
  else if c.toNat < 0x100 then '\\' :: 'x' :: hexDigits 2 c.toNat
  else if c.toNat < 0x10000 then '\\' :: 'u' :: hexDigits 4 c.toNat
  else '\\' :: 'U' :: hexDigits 8 c.toNat

def quotedChars (cs : List Char) : List Char :=
  let mark := quoteMark cs
  mark :: (cs.flatMap (escape mark) ++ [mark])

def quoted (s : String) : String :=
  String.ofList (quotedChars s.toList)

end Dice.Text
