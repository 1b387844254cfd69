import Dice.Node
import Dice.Parser.Basic

/-!
# Dice.Grammar

The grammar of dice notation.

* `roll` : the whole of a text as a sum of terms, else as one pool of dice with constants;
* `Grammar.read` : the tree of a text, or why there is none.

A pool is an optional count, the letter `d`, a die and modifiers. Every modifier, constant and
sign may have blanks around it and none inside it. Numbers are never zero.
-/

namespace Dice

/-- Dice of one kind rolled together, with modifiers of any type. -/
structure Pool (μ : Type) where
  count : Nat
  die : Die
  modifiers : List μ

def Pool.node (p : Pool Modifier) : Node :=
  .pool p.count (.die p.die) (p.modifiers.map .modifier)

/-- A sign and the roll that follows it. -/
abbrev Term : Type :=
  Symbol Sign × Node

namespace Grammar

open Dice.Parser

/-! ## Symbols and points -/

def symbolOf {α : Type} (char : α → Char) (a : α) : Parser α :=
  (Parser.char (String.ofList [char a])).map fun _ => a

def relation : Parser Relation :=
  alternative (Relation.all.map (symbolOf Relation.char))

def comparisonPoint : Parser (Relation × Nat) :=
  attempt (relation.andThen positiveInt)

def point (p : Relation × Nat) : Point :=
  ⟨.known p.1, p.2⟩

def sign : Parser Sign :=
  alternative (Sign.all.map (symbolOf Sign.char))

def arithmeticSign : Parser Sign :=
  token sign

/-! ## Modifiers -/

/-- Letters and an optional count, which is one where it is missing. -/
def countModifier (letters : String) (make : Int → Modifier) : Parser Modifier :=
  token (((string letters).andThen (optional positiveInt 1)).map fun value => make value.2)

/-- Letters and a comparison. -/
def comparisonModifier (letters : String) (trigger : Trigger) : Parser Modifier :=
  token (((string letters).andThen comparisonPoint).map fun value =>
    .onMatch trigger (point value.2))

def keepHighest : Parser Modifier := countModifier "kh" (.keep · true)

def keepLowest : Parser Modifier := countModifier "kl" (.keep · false)

def dropHighest : Parser Modifier := countModifier "dh" (.drop · true)

def dropLowest : Parser Modifier := countModifier "dl" (.drop · false)

def rerollOnce : Parser Modifier := comparisonModifier "ro" .rerollOnce

def rerollWhile : Parser Modifier := comparisonModifier "rc" .rerollWhile

def explode : Parser Modifier := comparisonModifier "!" .explode

def compound : Parser Modifier := comparisonModifier "^" .compound

def success : Parser Modifier :=
  token (comparisonPoint.map fun value => .onMatch .success (point value))

def failure : Parser Modifier := comparisonModifier "f" .failure

def constantModifier : Parser Modifier :=
  token ((sign.andThen positiveInt).map fun value => .adjust (.known value.1) value.2)

/-- Every modifier but the constant. -/
def diceModifier : Parser Modifier :=
  alternative [keepHighest, keepLowest, dropHighest, dropLowest, rerollOnce, rerollWhile,
    explode, compound, success, failure]

def modifier : Parser Modifier :=
  alternative [diceModifier, constantModifier]

/-! ## Rolls -/

def dieType : Parser Die :=
  alternative [
    (char "F").map fun _ => .fresh .fudge,
    (char "%").map fun _ => .fresh .percent,
    positiveInt.map fun (sides : Nat) => .fresh (.sided sides)]

/-- A pool whose modifiers are read by a given parser. -/
def pool {μ : Type} (modifier : Parser μ) : Parser (Pool μ) :=
  token (((((optional positiveInt 1).andThen (char "d")).andThen dieType).andThen
    (many modifier)).map fun value => ⟨value.1.1.1, value.1.2, value.2⟩)

def basicRoll : Parser Node :=
  (pool modifier).map Pool.node

def constant : Parser Node :=
  token (positiveInt.map fun (value : Nat) => .constant value)

/-- In a sum a sign always starts the next term, so a pool has no constants of its own. -/
def rollTerm : Parser Node :=
  alternative [(pool diceModifier).map Pool.node, constant]

/-- One term alone is that roll; more are a sum that starts with a plus. -/
def collapse (value : Node × List (Sign × Node)) : Node :=
  match value.2 with
  | [] => value.1
  | terms => .sum ((.known .plus, value.1) :: terms.map fun term => (.known term.1, term.2))

def arithmeticRoll : Parser Node :=
  (rollTerm.andThen (many (arithmeticSign.andThen rollTerm))).map collapse

/-- A parser that has to reach the end of the text. -/
def complete {α : Type} (p : Parser α) : Parser α :=
  (p.andThen endOfInput).map (·.1)

def roll : Parser Node :=
  (whitespace.andThen (alternative [
    attempt (complete arithmeticRoll),
    attempt (complete basicRoll),
    complete constant])).map (·.2)

/-! ## Whole texts -/

/-- Why a text is not a roll: it does not fit the grammar, or it holds a number that is too long
to be read. -/
inductive Error where
  | invalid (text : String) (position : Nat) (expected : Option String)
  | overlong (digits : Nat)
  deriving DecidableEq

namespace Error

/-- What is said about a text that does not fit the grammar. -/
def invalidMessage (text : String) (position : Int) (expected : Option String) : String :=
  let start := "Invalid roll format: " ++ Text.quoted text ++ ", stopped at position " ++
    toString position ++ "."
  match expected with
  | none => start
  | some expected => start ++ " Expected " ++ expected ++ "."

def overlongMessage (digits : Nat) : String :=
  "Exceeds the limit (" ++ toString Text.digitLimit ++ " digits) for integer string conversion: " ++
    "value has " ++ toString digits ++
    " digits; use sys.set_int_max_str_digits() to increase the limit"

def message : Error → String
  | .invalid text position expected => invalidMessage text position expected
  | .overlong digits => overlongMessage digits

end Error

/-- The place of a failure is where the reading as a sum stops. -/
def failureOf (text : String) : Error :=
  let chars := text.toList
  let start := chars.length - (Text.trimStart chars).length
  match (complete arithmeticRoll).run (Cursor.ofText chars start) with
  | .success _ next => .invalid text next.offset none
  | .failure expected offset => .invalid text offset (some expected)
  | .overlong digits => .overlong digits

def read (text : String) : Except Error Node :=
  match roll.run (Cursor.ofText text.toList 0) with
  | .success node _ => .ok node
  | .failure _ _ => .error (failureOf text)
  | .overlong digits => .error (.overlong digits)

end Grammar

end Dice
