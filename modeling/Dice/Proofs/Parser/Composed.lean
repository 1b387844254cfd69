import Dice.Proofs.Parser.Advancing

/-!
# Dice.Proofs.Parser.Composed

Parsers that are made of the leaves by the combinators, to any depth.

* `Parser.Composed p` : `p` is such a parser, for values of any kind.
* `composed_char`, `Composed.token` : so are those that are defined by others.
* `Composed.advances` : such parsers only go on in a text.
-/

namespace Dice

namespace Parser

inductive Composed : {α : Type} → Parser α → Prop where
  | satisfy (accepts : Char → Bool) (expected : String) : Composed (satisfy accepts expected)
  | string (wanted : String) : Composed (string wanted)
  | whitespace : Composed whitespace
  | endOfInput : Composed endOfInput
  | positiveInt : Composed positiveInt
  | map {α β : Type} {p : Parser α} (hp : Composed p) (f : α → β) : Composed (p.map f)
  | andThen {α β : Type} {p : Parser α} {q : Parser β} (hp : Composed p) (hq : Composed q) :
      Composed (p.andThen q)
  | sequence {α : Type} {ps : List (Parser α)} (hps : ∀ p ∈ ps, Composed p) :
      Composed (sequence ps)
  | alternative {α : Type} {ps : List (Parser α)} (hps : ∀ p ∈ ps, Composed p) :
      Composed (alternative ps)
  | attempt {α : Type} {p : Parser α} (hp : Composed p) : Composed (attempt p)
  | optional {α : Type} {p : Parser α} (hp : Composed p) (default : α) :
      Composed (optional p default)
  | many {α : Type} {p : Parser α} (hp : Composed p) : Composed (many p)
  | many1 {α : Type} {p : Parser α} (hp : Composed p) : Composed (many1 p)

variable {α : Type} {p : Parser α}

theorem composed_char (wanted : String) : (char wanted).Composed :=
  .satisfy _ _

theorem Composed.token (hp : p.Composed) : (token p).Composed :=
  (((Composed.whitespace.andThen hp).andThen .whitespace).map _).attempt

theorem Composed.advances (hp : p.Composed) : p.Advances := by
  induction hp with
  | satisfy accepts expected => exact advances_satisfy accepts expected
  | string wanted => exact advances_string wanted
  | whitespace => exact advances_whitespace
  | endOfInput => exact advances_endOfInput
  | positiveInt => exact advances_positiveInt
  | map _ f ih => exact ih.map f
  | andThen _ _ ihp ihq => exact ihp.andThen ihq
  | sequence _ ih => exact advances_sequence ih
  | alternative _ ih => exact advances_alternative ih
  | attempt _ ih => exact ih.attempt
  | optional _ default ih => exact ih.optional default
  | many _ ih => exact ih.many
  | many1 _ ih => exact ih.many1

end Parser

end Dice
