import Dice.Datum
import Dice.Grammar

/-!
# Dice.Pattern

Parsers as data: expressions over the combinators, whose values are of mixed kinds.

* `Value` : what such a parser produces;
* `Rule` : the parsers of the grammar by name;
* `Pattern`, `Pattern.parser` : expressions, and the parser that each one stands for.
-/

namespace Dice

/-- A pool holds whatever its modifier parser produced. -/
inductive Value where
  | datum (d : Datum)
  | list (items : List Value)
  | tuple (parts : List Value)
  | sign (s : Sign)
  | relation (r : Relation)
  | node (n : Node)
  | pool (count : Nat) (die : Die) (modifiers : List Value)
  deriving Inhabited

namespace Value

def none : Value := .datum .null

def text (s : String) : Value := .datum (.text s)

def number (n : Int) : Value := .datum (.int n)

mutual

def dump : Value → String
  | .datum d => d.dump
  | .list items => Text.list (dumpAll items)
  | .tuple parts => Text.tuple (dumpAll parts)
  | .sign s => s.dump
  | .relation r => r.dump
  | .node n => n.dump
  | .pool count kind modifiers =>
    Text.record "BasicRoll"
      [("count", toString count), ("die_type", kind.dump),
        ("modifiers", Text.tuple (dumpAll modifiers))]
termination_by structural v => v

def dumpAll : List Value → List String
  | [] => []
  | v :: vs => v.dump :: dumpAll vs
termination_by structural vs => vs

end

mutual

/-- Trees and symbols are compared as they are, settings by their value. -/
def same : Value → Value → Bool
  | .datum a, .datum b => a.same b
  | .list items, .list items' => sameAll items items'
  | .tuple parts, .tuple parts' => sameAll parts parts'
  | .sign s, .sign t => s = t
  | .relation r, .relation r' => r = r'
  | .node n, .node n' => n = n'
  | .pool count kind modifiers, .pool count' kind' modifiers' =>
    count = count' && kind = kind' && sameAll modifiers modifiers'
  | _, _ => false
termination_by structural v => v

def sameAll : List Value → List Value → Bool
  | [], [] => true
  | v :: vs, w :: ws => same v w && sameAll vs ws
  | _, _ => false
termination_by structural vs => vs

end

/-- The length of what has one. -/
def size? : Value → Option Nat
  | .list items => some items.length
  | .tuple parts => some parts.length
  | .datum (.text s) => some s.length
  | .datum (.list items) => some items.length
  | _ => Option.none

def ofPoint (p : Relation × Nat) : Value :=
  .tuple [.relation p.1, number p.2]

def ofPool (p : Pool Value) : Value :=
  .pool p.count p.die p.modifiers

end Value

/-- The named parsers of the grammar. -/
inductive Rule where
  | relation
  | comparisonPoint
  | sign
  | arithmeticSign
  | keepHighest
  | keepLowest
  | dropHighest
  | dropLowest
  | rerollOnce
  | rerollWhile
  | explode
  | compound
  | success
  | failure
  | constantModifier
  | diceModifier
  | modifier
  | dieType
  | basicRoll
  | constant
  | rollTerm
  | arithmeticRoll
  | roll
  | whitespace
  | endOfInput
  | positiveInt
  deriving DecidableEq

namespace Rule

open Dice.Parser

def ofModifier (p : Parser Modifier) : Parser Value :=
  p.map fun m => .node (.modifier m)

def ofNode (p : Parser Node) : Parser Value :=
  p.map .node

def parser : Rule → Parser Value
  | .relation => Grammar.relation.map .relation
  | .comparisonPoint => Grammar.comparisonPoint.map Value.ofPoint
  | .sign => Grammar.sign.map .sign
  | .arithmeticSign => Grammar.arithmeticSign.map .sign
  | .keepHighest => ofModifier Grammar.keepHighest
  | .keepLowest => ofModifier Grammar.keepLowest
  | .dropHighest => ofModifier Grammar.dropHighest
  | .dropLowest => ofModifier Grammar.dropLowest
  | .rerollOnce => ofModifier Grammar.rerollOnce
  | .rerollWhile => ofModifier Grammar.rerollWhile
  | .explode => ofModifier Grammar.explode
  | .compound => ofModifier Grammar.compound
  | .success => ofModifier Grammar.success
  | .failure => ofModifier Grammar.failure
  | .constantModifier => ofModifier Grammar.constantModifier
  | .diceModifier => ofModifier Grammar.diceModifier
  | .modifier => ofModifier Grammar.modifier
  | .dieType => Grammar.dieType.map fun d => .node (.die d)
  | .basicRoll => ofNode Grammar.basicRoll
  | .constant => ofNode Grammar.constant
  | .rollTerm => ofNode Grammar.rollTerm
  | .arithmeticRoll => ofNode Grammar.arithmeticRoll
  | .roll => ofNode Grammar.roll
  | .whitespace => Parser.whitespace.map fun _ => Value.none
  | .endOfInput => Parser.endOfInput.map fun _ => Value.none
  | .positiveInt => Parser.positiveInt.map fun (n : Nat) => Value.number n

end Rule

/-- An expression over the combinators. -/
inductive Pattern where
  | satisfy (accepts : Char → Bool) (expected : String)
  | char (wanted : String)
  | string (wanted : String)
  | whitespace
  | endOfInput
  | positiveInt
  | sequence (parts : List Pattern) (combine : List Value → Value)
  | alternative (choices : List Pattern)
  | attempt (p : Pattern)
  | many (p : Pattern)
  | many1 (p : Pattern)
  | map (f : Value → Value) (p : Pattern)
  | optional (p : Pattern) (default : Value)
  | token (p : Pattern)
  | complete (p : Pattern)
  | pool (modifier : Pattern)
  | countModifier (letters : String) (make : Int → Modifier)
  | comparisonModifier (letters : String) (trigger : Trigger)
  | rule (r : Rule)
  deriving Inhabited

namespace Pattern

mutual

def parser : Pattern → Parser Value
  | .satisfy accepts expected =>
    (Parser.satisfy accepts expected).map fun c => Value.text (String.singleton c)
  | .char wanted => (Parser.char wanted).map fun c => Value.text (String.singleton c)
  | .string wanted => (Parser.string wanted).map Value.text
  | .whitespace => Rule.whitespace.parser
  | .endOfInput => Rule.endOfInput.parser
  | .positiveInt => Rule.positiveInt.parser
  | .sequence parts combine => (Parser.sequence (parsers parts)).map combine
  | .alternative choices => Parser.alternative (parsers choices)
  | .attempt p => Parser.attempt p.parser
  | .many p => (Parser.many p.parser).map .list
  | .many1 p => (Parser.many1 p.parser).map .list
  | .map f p => p.parser.map f
  | .optional p default => p.parser.optional default
  | .token p => Parser.token p.parser
  | .complete p => Grammar.complete p.parser
  | .pool modifier => (Grammar.pool modifier.parser).map Value.ofPool
  | .countModifier letters make => Rule.ofModifier (Grammar.countModifier letters make)
  | .comparisonModifier letters trigger =>
    Rule.ofModifier (Grammar.comparisonModifier letters trigger)
  | .rule r => r.parser
termination_by structural p => p

def parsers : List Pattern → List (Parser Value)
  | [] => []
  | p :: ps => p.parser :: parsers ps
termination_by structural ps => ps

end

end Pattern

/-! ## Answers written out -/

def Parser.dump {α : Type} (p : Parser α) : String :=
  Text.record "Parser" [("name", Text.quoted p.name)]

/-- What a parser answered, apart from the text that is left. -/
inductive Answer where
  | success (value : Value) (offset : Nat)
  | failure (expected : String) (offset : Nat)

namespace Answer

def truthy : Answer → Bool
  | .success _ _ => true
  | .failure _ _ => false

def dump : Answer → String
  | .success value offset =>
    Text.record "Success" [("value", value.dump), ("pos", toString offset)]
  | .failure expected offset =>
    Text.record "Failure" [("expected", Text.quoted expected), ("pos", toString offset)]

/-- Answers of the same kind with the same contents are the same. -/
def same : Answer → Answer → Bool
  | .success a i, .success b j => a.same b && i == j
  | .failure a i, .failure b j => a == b && i == j
  | _, _ => false

end Answer

/-- The answer of a parser at an offset of a text; a number too long to read is none. -/
def Parser.answer (p : Parser Value) (text : String) (offset : Nat) : Except Grammar.Error Answer :=
  match p.run (Parser.Cursor.ofText text.toList offset) with
  | .success value next => .ok (.success value next.offset)
  | .failure expected offset => .ok (.failure expected offset)
  | .overlong digits => .error (.overlong digits)

end Dice
