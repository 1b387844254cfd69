import Dice.Parser.Cursor
import Dice.Text.Blank
import Dice.Text.Numeral
import Dice.Text.Quoted

/-!
# Dice.Parser.Basic

Parsers and their combinators. A failure whose offset is past the place where the parser started
has consumed input; choices and repetitions go on only after failures that consumed nothing.

* `Parser` : a function on cursors, with a name that says what it recognises;
* `satisfy`, `char`, `string`, `whitespace`, `endOfInput`, `positiveInt` : the leaves;
* `sequence`, `andThen`, `alternative`, `attempt`, `many`, `many1`, `map`, `optional`, `token` :
  the combinators.
-/

namespace Dice

open Dice.Parser (Cursor Outcome)

structure Parser (α : Type) where
  name : String
  run : Cursor → Outcome α

namespace Parser

variable {α β : Type}

/-! ## Leaves -/

/-- One character of a class. -/
def satisfy (accepts : Char → Bool) (expected : String) : Parser Char where
  name := expected
  run c :=
    match c.rest with
    | [] => .failure expected c.offset
    | head :: _ => if accepts head then .success head (c.advance 1) else .failure expected c.offset

/-- One character that is the whole of a text; a text that is not one character is never found. -/
def char (wanted : String) : Parser Char :=
  satisfy (fun found => [found] == wanted.toList) (Text.quoted wanted)

/-- A text, all of it or nothing. The empty text is found everywhere but past the end. -/
def string (wanted : String) : Parser String where
  name := Text.quoted wanted
  run c :=
    if wanted.toList.isPrefixOf c.rest && !c.pastEnd then
      .success wanted (c.advance wanted.toList.length)
    else .failure (Text.quoted wanted) c.offset

/-- Any number of blanks. -/
def whitespace : Parser Unit where
  name := "whitespace"
  run c := .success () (c.advance (c.rest.takeWhile Text.isBlank).length)

def endOfInput : Parser Unit where
  name := "end of input"
  run c := if c.atEnd then .success () c else .failure "end of input" c.offset

/-- A run of digits that is not zero. -/
def positiveInt : Parser Nat where
  name := "positive integer"
  run c :=
    let digits := c.rest.takeWhile Text.isDigit
    if digits.isEmpty then .failure "positive integer" c.offset
    else if Text.digitLimit < digits.length then .overlong digits.length
    else if Text.ofDigits digits = 0 then .failure "positive integer" c.offset
    else .success (Text.ofDigits digits) (c.advance digits.length)

/-! ## Combinators -/

def map (f : α → β) (p : Parser α) : Parser β where
  name := p.name
  run c := (p.run c).map f

def joinNames (separator : String) (ps : List (Parser α)) : String :=
  separator.intercalate (ps.map Parser.name)

/-- One parser after another, up to the first that fails. -/
def runAll : List (Parser α) → Cursor → Outcome (List α)
  | [], c => .success [] c
  | p :: ps, c =>
    match p.run c with
    | .success value next => (runAll ps next).map (value :: ·)
    | .failure expected offset => .failure expected offset
    | .overlong digits => .overlong digits

def sequence (ps : List (Parser α)) : Parser (List α) where
  name := joinNames " " ps
  run := runAll ps

/-- A sequence of two parsers for values of different kinds. -/
def andThen (p : Parser α) (q : Parser β) : Parser (α × β) where
  name := p.name ++ " " ++ q.name
  run c :=
    match p.run c with
    | .success value next => (q.run next).map (value, ·)
    | .failure expected offset => .failure expected offset
    | .overlong digits => .overlong digits

/-- The first choice that succeeds, or that fails after consuming input. -/
def runFirst (expected : String) : List (Parser α) → Cursor → Outcome α
  | [], c => .failure expected c.offset
  | p :: ps, c =>
    match p.run c with
    | .success value next => .success value next
    | .failure expected' offset =>
      if offset = c.offset then runFirst expected ps c else .failure expected' offset
    | .overlong digits => .overlong digits

def alternative (ps : List (Parser α)) : Parser α where
  name := joinNames " or " ps
  run := runFirst (joinNames " or " ps) ps

/-- A failure is reported at the start, as if nothing had been consumed. -/
def attempt (p : Parser α) : Parser α where
  name := p.name
  run c :=
    match p.run c with
    | .success value next => .success value next
    | .failure expected _ => .failure expected c.offset
    | .overlong digits => .overlong digits

/-- Successes one after another, newest value first in `values`. A failure that consumed nothing
ends the run, and so does a success that consumed nothing, whose value still counts. As long as
each success consumes something, the characters that are left bound their number. -/
def runMany (p : Cursor → Outcome α) : Nat → List α → Cursor → Outcome (List α)
  | left, values, c =>
    match p c with
    | .success value next =>
      if next.offset = c.offset then .success (value :: values).reverse next
      else
        match left with
        | 0 => .success (value :: values).reverse next
        | left + 1 => runMany p left (value :: values) next
    | .failure expected offset =>
      if offset = c.offset then .success values.reverse c else .failure expected offset
    | .overlong digits => .overlong digits

def many (p : Parser α) : Parser (List α) where
  name := "many(" ++ p.name ++ ")"
  run c := runMany p.run c.rest.length [] c

def many1 (p : Parser α) : Parser (List α) where
  name := "many1(" ++ p.name ++ ")"
  run c :=
    match p.run c with
    | .success value next => ((many p).run next).map (value :: ·)
    | .failure expected offset => .failure expected offset
    | .overlong digits => .overlong digits

/-- A parser that fails is passed over, whatever it consumed. -/
def optional (p : Parser α) (default : α) : Parser α where
  name := "optional(" ++ p.name ++ ")"
  run c :=
    match p.run c with
    | .success value next => .success value next
    | .failure _ _ => .success default c
    | .overlong digits => .overlong digits

/-- A parser with blanks on both sides; all of it is taken back on failure. -/
def token (p : Parser α) : Parser α :=
  attempt (((whitespace.andThen p).andThen whitespace).map fun value => value.1.2)

end Parser

end Dice
