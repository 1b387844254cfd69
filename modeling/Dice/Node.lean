import Dice.Modifier

/-!
# Dice.Node

The tree of a notation, with a place for whatever else a tree may be given.

* `Node` : rolls, and the things that are no rolls but may stand where one is expected;
* `Node.chars?` : the tree in notation;
* `Node.dump` : the tree written out with every field;
* `Node.writable` : whether every number in the tree is short enough for that;
* `Node.decEq` : equality of trees.
-/

namespace Dice

/-- A roll is a constant, a pool of dice with modifiers, or a sum of signed rolls. Trees built by
hand may hold anything anywhere: a stranger, a die, a modifier, or a bare roll or node. -/
inductive Node where
  | stranger (s : Stranger)
  | die (d : Die)
  | modifier (m : Modifier)
  | constant (value : Int)
  | pool (count : Int) (die : Node) (modifiers : List Node)
  | sum (terms : List (Symbol Sign × Node))
  | bareRoll
  | bare
  deriving Inhabited

namespace Node

/-! ## Equality -/

mutual

def decEq : (a b : Node) → Decidable (a = b)
  | .bareRoll, .bareRoll | .bare, .bare => isTrue rfl
  | .stranger a, .stranger b => decidable_of_iff (a = b) (by simp)
  | .die a, .die b => decidable_of_iff (a = b) (by simp)
  | .modifier a, .modifier b => decidable_of_iff (a = b) (by simp)
  | .constant a, .constant b => decidable_of_iff (a = b) (by simp)
  | .pool count kind modifiers, .pool count' kind' modifiers' =>
    have := decEq kind kind'
    have := decEqAll modifiers modifiers'
    decidable_of_iff (count = count' ∧ kind = kind' ∧ modifiers = modifiers') (by simp)
  | .sum terms, .sum terms' =>
    have := decEqTerms terms terms'
    decidable_of_iff (terms = terms') (by simp)
  | .stranger _, .die _ | .stranger _, .modifier _ | .stranger _, .constant _
  | .stranger _, .pool .. | .stranger _, .sum _ | .stranger _, .bareRoll
  | .stranger _, .bare | .die _, .stranger _ | .die _, .modifier _ | .die _, .constant _
  | .die _, .pool .. | .die _, .sum _ | .die _, .bareRoll | .die _, .bare
  | .modifier _, .stranger _ | .modifier _, .die _ | .modifier _, .constant _
  | .modifier _, .pool .. | .modifier _, .sum _ | .modifier _, .bareRoll
  | .modifier _, .bare | .constant _, .stranger _ | .constant _, .die _
  | .constant _, .modifier _ | .constant _, .pool .. | .constant _, .sum _
  | .constant _, .bareRoll | .constant _, .bare | .pool .., .stranger _ | .pool .., .die _
  | .pool .., .modifier _ | .pool .., .constant _ | .pool .., .sum _ | .pool .., .bareRoll
  | .pool .., .bare | .sum _, .stranger _ | .sum _, .die _ | .sum _, .modifier _
  | .sum _, .constant _ | .sum _, .pool .. | .sum _, .bareRoll | .sum _, .bare
  | .bareRoll, .stranger _ | .bareRoll, .die _ | .bareRoll, .modifier _
  | .bareRoll, .constant _ | .bareRoll, .pool .. | .bareRoll, .sum _ | .bareRoll, .bare
  | .bare, .stranger _ | .bare, .die _ | .bare, .modifier _ | .bare, .constant _
  | .bare, .pool .. | .bare, .sum _ | .bare, .bareRoll => isFalse nofun
termination_by structural a => a

def decEqAll : (as bs : List Node) → Decidable (as = bs)
  | [], [] => isTrue rfl
  | a :: as, b :: bs =>
    have := decEq a b
    have := decEqAll as bs
    decidable_of_iff (a = b ∧ as = bs) (by simp)
  | [], _ :: _ | _ :: _, [] => isFalse nofun
termination_by structural as => as

def decEqTerms : (as bs : List (Symbol Sign × Node)) → Decidable (as = bs)
  | [], [] => isTrue rfl
  | (sign, a) :: as, (sign', b) :: bs =>
    have := decEq a b
    have := decEqTerms as bs
    decidable_of_iff (sign = sign' ∧ a = b ∧ as = bs) (by simp [and_assoc])
  | [], _ :: _ | _ :: _, [] => isFalse nofun
termination_by structural as => as

end

instance : DecidableEq Node := decEq

/-! ## The tree written out -/

mutual

def dump : Node → String
  | .stranger s => s.dump
  | .die d => d.dump
  | .modifier m => m.dump
  | .constant value => Text.record "Constant" [("value", toString value)]
  | .pool count kind modifiers =>
    Text.record "BasicRoll"
      [("count", toString count), ("die_type", kind.dump),
        ("modifiers", Text.tuple (dumpAll modifiers))]
  | .sum terms => Text.record "ArithmeticRoll" [("terms", Text.tuple (dumpTerms terms))]
  | .bareRoll => "Roll()"
  | .bare => "Node()"
termination_by structural n => n

def dumpAll : List Node → List String
  | [] => []
  | n :: ns => n.dump :: dumpAll ns
termination_by structural ns => ns

def dumpTerms : List (Symbol Sign × Node) → List String
  | [] => []
  | (sign, n) :: terms => Text.tuple [sign.dump Sign.dump, n.dump] :: dumpTerms terms
termination_by structural terms => terms

end

mutual

/-- No number in the tree is too long to be written. -/
def writable : Node → Bool
  | .stranger s => s.writable
  | .die d => d.writable
  | .modifier m => m.writable
  | .constant value => Text.writable value
  | .pool count kind modifiers => Text.writable count && (kind.writable && writableAll modifiers)
  | .sum terms => writableTerms terms
  | .bareRoll | .bare => true
termination_by structural n => n

def writableAll : List Node → Bool
  | [] => true
  | n :: ns => n.writable && writableAll ns
termination_by structural ns => ns

def writableTerms : List (Symbol Sign × Node) → Bool
  | [] => true
  | (sign, n) :: terms => sign.writable && (n.writable && writableTerms terms)
termination_by structural terms => terms

end

/-! ## The tree in notation -/

/-- The sign of a term is left out where it is a plus at the very start. -/
def signChars? (atStart : Bool) : Symbol Sign → Option (List Char)
  | .known .plus => some (if atStart then [] else ['+'])
  | .known .minus => some ['-']
  | .unknown _ => none

mutual

/-- There is none if a symbol in the tree is not known. -/
def chars? : Node → Option (List Char)
  | .stranger s => some s.display.toList
  | .die d => some d.chars
  | .modifier m => m.chars?
  | .constant value => some (Text.numeral value)
  | .pool count kind modifiers =>
    match kind.chars?, charsAll? modifiers with
    | some kind, some modifiers => some (Text.numeral count ++ 'd' :: (kind ++ modifiers))
    | _, _ => none
  | .sum terms => charsTerms? true terms
  | .bareRoll => some "Roll()".toList
  | .bare => some "Node()".toList
termination_by structural n => n

def charsAll? : List Node → Option (List Char)
  | [] => some []
  | n :: ns =>
    match n.chars?, charsAll? ns with
    | some n, some ns => some (n ++ ns)
    | _, _ => none
termination_by structural ns => ns

def charsTerms? (atStart : Bool) : List (Symbol Sign × Node) → Option (List Char)
  | [] => some []
  | (sign, n) :: terms =>
    match signChars? atStart sign, n.chars?, charsTerms? false terms with
    | some sign, some n, some terms => some (sign ++ (n ++ terms))
    | _, _, _ => none
termination_by structural terms => terms

end

def text? (n : Node) : Option String :=
  n.chars?.map String.ofList

/-- The class that a tree shows in messages. -/
def className : Node → String
  | .stranger s => s.className
  | .die d => d.className
  | .modifier m => m.className
  | .constant _ => "Constant"
  | .pool .. => "BasicRoll"
  | .sum _ => "ArithmeticRoll"
  | .bareRoll => "Roll"
  | .bare => "Node"

end Node

end Dice
