import Dice.Pattern
import Dice.Proofs.Parser.Composed

/-!
# Dice.Proofs.Notation.Parsers

The parsers of the grammar, and all expressions over the combinators, are made of the leaves by the
combinators.

* `composed_diceModifier`, `composed_modifier`, `composed_pool` and the like : the parts of a roll.
* `composed_rule`, `composed_pattern` : all of them.
-/

namespace Dice

open Dice.Parser (Composed composed_char)
open Dice.Grammar

namespace Notation

theorem composed_symbols {α : Type} (char : α → Char) (as : List α) :
    (Parser.alternative (as.map (symbolOf char))).Composed := by
  refine Composed.alternative fun p hp => ?_
  obtain ⟨a, _, rfl⟩ := List.mem_map.mp hp
  exact (composed_char _).map _

theorem composed_sign : sign.Composed :=
  composed_symbols Sign.char Sign.all

theorem composed_comparisonPoint : comparisonPoint.Composed :=
  ((composed_symbols Relation.char Relation.all).andThen Composed.positiveInt).attempt

theorem composed_countModifier (letters : String) (make : Int → Modifier) :
    (countModifier letters make).Composed :=
  (((Composed.string letters).andThen (Composed.positiveInt.optional 1)).map _).token

theorem composed_comparisonModifier (letters : String) (trigger : Trigger) :
    (comparisonModifier letters trigger).Composed :=
  (((Composed.string letters).andThen composed_comparisonPoint).map _).token

theorem composed_success : success.Composed :=
  (composed_comparisonPoint.map _).token

theorem composed_constantModifier : constantModifier.Composed :=
  ((composed_sign.andThen Composed.positiveInt).map _).token

theorem composed_diceModifier : diceModifier.Composed := by
  refine Composed.alternative ?_
  simp only [List.forall_mem_cons, List.not_mem_nil, false_implies, implies_true, and_true]
  exact ⟨composed_countModifier _ _, composed_countModifier _ _, composed_countModifier _ _,
    composed_countModifier _ _, composed_comparisonModifier _ _, composed_comparisonModifier _ _,
    composed_comparisonModifier _ _, composed_comparisonModifier _ _, composed_success,
    composed_comparisonModifier _ _⟩

theorem composed_modifier : modifier.Composed := by
  refine Composed.alternative ?_
  simp only [List.forall_mem_cons, List.not_mem_nil, false_implies, implies_true, and_true]
  exact ⟨composed_diceModifier, composed_constantModifier⟩

theorem composed_dieType : dieType.Composed := by
  refine Composed.alternative ?_
  simp only [List.forall_mem_cons, List.not_mem_nil, false_implies, implies_true, and_true]
  exact ⟨(composed_char _).map _, (composed_char _).map _,
    Composed.positiveInt.map _⟩

theorem composed_pool {μ : Type} {modifier : Parser μ} (h : modifier.Composed) :
    (pool modifier).Composed :=
  (((((Composed.positiveInt.optional 1).andThen (composed_char "d")).andThen
    composed_dieType).andThen h.many).map _).token

theorem composed_basicRoll : basicRoll.Composed :=
  (composed_pool composed_modifier).map _

theorem composed_constant : constant.Composed :=
  (Composed.positiveInt.map _).token

theorem composed_rollTerm : rollTerm.Composed := by
  refine Composed.alternative ?_
  simp only [List.forall_mem_cons, List.not_mem_nil, false_implies, implies_true, and_true]
  exact ⟨(composed_pool composed_diceModifier).map _, composed_constant⟩

theorem composed_arithmeticRoll : arithmeticRoll.Composed :=
  (composed_rollTerm.andThen (composed_sign.token.andThen composed_rollTerm).many).map _

theorem composed_complete {α : Type} {p : Parser α} (h : p.Composed) : (complete p).Composed :=
  (h.andThen Composed.endOfInput).map _

theorem composed_roll : roll.Composed := by
  refine (Composed.whitespace.andThen (Composed.alternative ?_)).map _
  simp only [List.forall_mem_cons, List.not_mem_nil, false_implies, implies_true, and_true]
  exact ⟨(composed_complete composed_arithmeticRoll).attempt,
    (composed_complete composed_basicRoll).attempt, composed_complete composed_constant⟩

theorem composed_rule (r : Rule) : r.parser.Composed := by
  cases r with
  | relation => exact (composed_symbols Relation.char Relation.all).map _
  | comparisonPoint => exact composed_comparisonPoint.map _
  | sign => exact composed_sign.map _
  | arithmeticSign => exact composed_sign.token.map _
  | keepHighest | keepLowest | dropHighest | dropLowest =>
    exact (composed_countModifier _ _).map _
  | rerollOnce | rerollWhile | explode | compound | failure =>
    exact (composed_comparisonModifier _ _).map _
  | success => exact composed_success.map _
  | constantModifier => exact composed_constantModifier.map _
  | diceModifier => exact composed_diceModifier.map _
  | modifier => exact composed_modifier.map _
  | dieType => exact composed_dieType.map _
  | basicRoll => exact composed_basicRoll.map _
  | constant => exact composed_constant.map _
  | rollTerm => exact composed_rollTerm.map _
  | arithmeticRoll => exact composed_arithmeticRoll.map _
  | roll => exact composed_roll.map _
  | whitespace => exact Composed.whitespace.map _
  | endOfInput => exact Composed.endOfInput.map _
  | positiveInt => exact Composed.positiveInt.map _

mutual

theorem composed_pattern : (p : Pattern) → p.parser.Composed
  | .satisfy accepts expected => (Composed.satisfy accepts expected).map _
  | .char wanted => (composed_char wanted).map _
  | .string wanted => (Composed.string wanted).map _
  | .whitespace => composed_rule .whitespace
  | .endOfInput => composed_rule .endOfInput
  | .positiveInt => composed_rule .positiveInt
  | .sequence parts _ => (Composed.sequence (composed_patterns parts)).map _
  | .alternative choices => Composed.alternative (composed_patterns choices)
  | .attempt p => (composed_pattern p).attempt
  | .many p => (composed_pattern p).many.map _
  | .many1 p => (composed_pattern p).many1.map _
  | .map _ p => (composed_pattern p).map _
  | .optional p default => (composed_pattern p).optional default
  | .token p => (composed_pattern p).token
  | .complete p => composed_complete (composed_pattern p)
  | .pool modifier => (composed_pool (composed_pattern modifier)).map _
  | .countModifier letters make => (composed_countModifier letters make).map _
  | .comparisonModifier letters trigger => (composed_comparisonModifier letters trigger).map _
  | .rule r => composed_rule r
termination_by structural p => p

theorem composed_patterns : (ps : List Pattern) → ∀ p ∈ Pattern.parsers ps, p.Composed
  | [] => fun _ h => absurd h List.not_mem_nil
  | p :: ps => List.forall_mem_cons.mpr ⟨composed_pattern p, composed_patterns ps⟩
termination_by structural ps => ps

end

end Notation

end Dice
