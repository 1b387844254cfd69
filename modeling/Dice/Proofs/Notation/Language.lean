import Dice.Grammar
import Dice.Proofs.Parser.Lexing
import Dice.Proofs.Text.Numeral

/-!
# Dice.Proofs.Notation.Language

Dice notation as a language: the texts that are words of it, and what each of them stands for.

* `Comparison`, `Count`, `Face` : what modifiers and dice are made of;
* `DiceModifier`, `Adjustment`, `AnyModifier` : the modifiers, without blanks around them;
* `PoolWord`, `ConstantWord`, `Term`, `SignedTerm` : the parts of a sum;
* `Arithmetic`, `Basic` : whole texts, as a sum of terms and as one pool with constants.
-/

namespace Dice

open Dice.Parser (Blanks Number Spaced Repeated Solid Stops)
open Dice.Grammar (point)

namespace Notation

/-! ## Words -/

/-- A relation directly followed by a number. -/
inductive Comparison : List Char → Relation × Nat → Prop where
  | intro {ds : List Char} {n : Nat} (r : Relation) : Number ds n → Comparison (r.char :: ds) (r, n)

/-- A number that is one where it is missing. -/
inductive Count : List Char → Nat → Prop where
  | missing : Count [] 1
  | written {ds : List Char} {n : Nat} : Number ds n → Count ds n

inductive Face : List Char → Die → Prop where
  | fudge : Face ['F'] (.fresh .fudge)
  | percent : Face ['%'] (.fresh .percent)
  | sided {ds : List Char} {n : Nat} : Number ds n → Face ds (.fresh (.sided n))

/-- Every modifier but the constant. A comparison alone counts successes. -/
inductive DiceModifier : List Char → Modifier → Prop where
  | keepHighest {ds : List Char} {n : Nat} : Count ds n →
      DiceModifier ('k' :: 'h' :: ds) (.keep n true)
  | keepLowest {ds : List Char} {n : Nat} : Count ds n →
      DiceModifier ('k' :: 'l' :: ds) (.keep n false)
  | dropHighest {ds : List Char} {n : Nat} : Count ds n →
      DiceModifier ('d' :: 'h' :: ds) (.drop n true)
  | dropLowest {ds : List Char} {n : Nat} : Count ds n →
      DiceModifier ('d' :: 'l' :: ds) (.drop n false)
  | rerollOnce {cs : List Char} {p : Relation × Nat} : Comparison cs p →
      DiceModifier ('r' :: 'o' :: cs) (.onMatch .rerollOnce (point p))
  | rerollWhile {cs : List Char} {p : Relation × Nat} : Comparison cs p →
      DiceModifier ('r' :: 'c' :: cs) (.onMatch .rerollWhile (point p))
  | explode {cs : List Char} {p : Relation × Nat} : Comparison cs p →
      DiceModifier ('!' :: cs) (.onMatch .explode (point p))
  | compound {cs : List Char} {p : Relation × Nat} : Comparison cs p →
      DiceModifier ('^' :: cs) (.onMatch .compound (point p))
  | success {cs : List Char} {p : Relation × Nat} : Comparison cs p →
      DiceModifier cs (.onMatch .success (point p))
  | failure {cs : List Char} {p : Relation × Nat} : Comparison cs p →
      DiceModifier ('f' :: cs) (.onMatch .failure (point p))

/-- A sign directly followed by a number. -/
inductive Adjustment : List Char → Modifier → Prop where
  | intro {ds : List Char} {n : Nat} (s : Sign) : Number ds n →
      Adjustment (s.char :: ds) (.adjust (.known s) n)

inductive AnyModifier : List Char → Modifier → Prop where
  | dice {cs : List Char} {m : Modifier} : DiceModifier cs m → AnyModifier cs m
  | adjustment {cs : List Char} {m : Modifier} : Adjustment cs m → AnyModifier cs m

/-- A body without blanks inside, and modifiers of some kind with blanks around each. -/
inductive PoolWord (M : List Char → Modifier → Prop) : List Char → Pool Modifier → Prop where
  | intro {us vs ws : List Char} {n : Nat} {d : Die} {ms : List Modifier} :
      Count us n → Face vs d → Repeated (Spaced M) ws ms →
      PoolWord M (us ++ 'd' :: (vs ++ ws)) ⟨n, d, ms⟩

inductive ConstantWord : List Char → Node → Prop where
  | intro {ds : List Char} {n : Nat} : Number ds n → ConstantWord ds (.constant n)

/-- A pool in a sum has no constants of its own. -/
inductive TermWord : List Char → Node → Prop where
  | pool {cs : List Char} {p : Pool Modifier} : PoolWord DiceModifier cs p → TermWord cs p.node
  | constant {cs : List Char} {r : Node} : ConstantWord cs r → TermWord cs r

def SignWord (cs : List Char) (s : Sign) : Prop :=
  cs = [s.char]

/-! ## Texts -/

abbrev Term : List Char → Node → Prop :=
  Spaced TermWord

inductive SignedTerm (T : List Char → Node → Prop) : List Char → Sign × Node → Prop where
  | intro {u v : List Char} {s : Sign} {r : Node} :
      Spaced SignWord u s → Spaced T v r → SignedTerm T (u ++ v) (s, r)

theorem SignedTerm.mono {T U : List Char → Node → Prop} {cs : List Char} {t : Sign × Node}
    (h : SignedTerm T cs t) (hTU : ∀ u r, T u r → U u r) : SignedTerm U cs t := by
  obtain ⟨hs, hr⟩ := h
  exact .intro hs (hr.mono fun u => hTU u _)

/-- One term stands for itself, more for a sum that starts with a plus. -/
inductive Arithmetic : List Char → Node → Prop where
  | single {cs : List Char} {r : Node} : Term cs r → Arithmetic cs r
  | sum {u v : List Char} {r : Node} {terms : List (Sign × Node)} :
      Term u r → Repeated (SignedTerm TermWord) v terms → terms ≠ [] →
      Arithmetic (u ++ v)
        (.sum ((.known .plus, r) :: terms.map fun term => (.known term.1, term.2)))

/-- One pool, with constants among its modifiers. -/
inductive Basic : List Char → Node → Prop where
  | intro {cs : List Char} {p : Pool Modifier} : Spaced (PoolWord AnyModifier) cs p →
      Basic cs p.node

/-- The reading as a sum comes first. -/
def Denotes (cs : List Char) (r : Node) : Prop :=
  Arithmetic cs r ∨ (¬ ∃ r', Arithmetic cs r') ∧ Basic cs r

theorem Arithmetic.of_blanks_append {u cs : List Char} {r : Node} (hu : Blanks u)
    (h : Arithmetic cs r) : Arithmetic (u ++ cs) r := by
  cases h with
  | single h => exact .single (h.of_blanks_append hu)
  | sum h hterms hne =>
    rw [← List.append_assoc]
    exact .sum (h.of_blanks_append hu) hterms hne

theorem Basic.of_blanks_append {u cs : List Char} {r : Node} (hu : Blanks u) (h : Basic cs r) :
    Basic (u ++ cs) r := by
  obtain ⟨h⟩ := h
  exact .intro (h.of_blanks_append hu)

/-! ## How words begin -/

theorem exists_digit_of_number {ds : List Char} {n : Nat} (h : Number ds n) :
    ∃ c rest, ds = c :: rest ∧ Text.isDigit c = true := by
  obtain ⟨hne, hdigits, _, _⟩ := h
  cases ds with
  | nil => exact absurd rfl hne
  | cons c ds => exact ⟨c, ds, rfl, hdigits c List.mem_cons_self⟩

theorem solid_digits {ds : List Char} (hne : ds ≠ []) (h : ∀ c ∈ ds, Text.isDigit c = true) :
    Solid ds := by
  cases ds with
  | nil => exact absurd rfl hne
  | cons c ds =>
    refine ⟨c, ds, rfl, ?_⟩
    rw [Bool.eq_false_iff]
    intro hblank
    have hdigit := h c List.mem_cons_self
    rw [Text.isDigit_of_isBlank hblank] at hdigit
    cases hdigit

theorem solid_number {ds : List Char} {n : Nat} (h : Number ds n) : Solid ds := by
  obtain ⟨hne, hdigits, _, _⟩ := h
  exact solid_digits hne hdigits

/-- The text begins with a letter or a mark. -/
def Marked (cs : List Char) : Prop :=
  ∃ c rest, cs = c :: rest ∧ Text.isBlank c = false ∧ Text.isDigit c = false

theorem Marked.solid {cs : List Char} (h : Marked cs) : Solid cs := by
  obtain ⟨c, rest, rfl, hc, _⟩ := h
  exact ⟨c, rest, rfl, hc⟩

theorem Marked.stops_append {cs : List Char} (h : Marked cs) (more : List Char) :
    Stops Text.isDigit (cs ++ more) := by
  obtain ⟨c, rest, rfl, _, hc⟩ := h
  exact Parser.stops_cons hc

theorem marked_comparison {cs : List Char} {p : Relation × Nat} (h : Comparison cs p) :
    Marked cs := by
  obtain ⟨r, _⟩ := h
  exact ⟨r.char, _, rfl, by cases r <;> decide⟩

theorem marked_diceModifier {cs : List Char} {m : Modifier} (h : DiceModifier cs m) :
    Marked cs := by
  cases h with
  | success hp => exact marked_comparison hp
  | _ => exact ⟨_, _, rfl, by decide⟩

theorem marked_sign (s : Sign) (cs : List Char) : Marked (s.char :: cs) :=
  ⟨s.char, cs, rfl, by cases s <;> decide⟩

theorem marked_anyModifier {cs : List Char} {m : Modifier} (h : AnyModifier cs m) :
    Marked cs := by
  cases h with
  | dice h => exact marked_diceModifier h
  | adjustment h =>
    obtain ⟨s, _⟩ := h
    exact marked_sign s _

theorem solid_poolWord {M : List Char → Modifier → Prop} {cs : List Char} {p : Pool Modifier}
    (h : PoolWord M cs p) : Solid cs := by
  obtain ⟨hcount, _, _⟩ := h
  cases hcount with
  | missing => exact ⟨'d', _, rfl, by decide⟩
  | written hn => exact (solid_number hn).append _

theorem solid_constantWord {cs : List Char} {r : Node} (h : ConstantWord cs r) : Solid cs := by
  obtain ⟨hn⟩ := h
  exact solid_number hn

theorem solid_termWord {cs : List Char} {r : Node} (h : TermWord cs r) : Solid cs := by
  cases h with
  | pool h => exact solid_poolWord h
  | constant h => exact solid_constantWord h

theorem solid_signWord {cs : List Char} {s : Sign} (h : SignWord cs s) : Solid cs := by
  rw [h]
  exact (marked_sign s []).solid

end Notation

end Dice
