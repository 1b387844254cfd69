import Dice.Proofs.Notation.Acceptance

/-!
# Dice.Proofs.Notation.Image

The rolls that texts are read as.

* `Numeric`, `DiceValue`, `ConstantValue` : the numbers and modifiers of such rolls;
* `Interrupted` : modifiers among which one of the dice stands behind a constant;
* `WellFormed` : the rolls;
* `wellFormed_of_read` : no text is read as another roll.
-/

namespace Dice

open Dice.Parser (Number Repeated Spaced)
open Dice.Grammar (point)

namespace Notation

/-! ## Well-formed rolls -/

/-- A positive number that is short enough to be read. -/
def Numeric (n : Int) : Prop :=
  1 ≤ n ∧ (Text.numeral n).length ≤ Text.digitLimit

inductive WellFormedDie : Die → Prop where
  | sided {n : Int} : Numeric n → WellFormedDie (.fresh (.sided n))
  | percent : WellFormedDie (.fresh .percent)
  | fudge : WellFormedDie (.fresh .fudge)

inductive DiceValue : Modifier → Prop where
  | keep {n : Int} (highest : Bool) : Numeric n → DiceValue (.keep n highest)
  | drop {n : Int} (highest : Bool) : Numeric n → DiceValue (.drop n highest)
  | onMatch {t : Trigger} {n : Int} (r : Relation) : t ≠ .general → Numeric n →
      DiceValue (.onMatch t ⟨.known r, n⟩)

inductive ConstantValue : Modifier → Prop where
  | adjust {n : Int} (s : Sign) : Numeric n → ConstantValue (.adjust (.known s) n)

/-- Some modifier of dice stands behind a constant. -/
def Interrupted (ms : List Modifier) : Prop :=
  ∃ before s between m after, ms = before ++ s :: (between ++ m :: after) ∧
    ConstantValue s ∧ DiceValue m

/-- A constant, or a pool that has no constants of its own. -/
inductive WellFormedTerm : Node → Prop where
  | constant {n : Int} : Numeric n → WellFormedTerm (.constant n)
  | pool {n : Int} {d : Die} {ms : List Modifier} : Numeric n → WellFormedDie d →
      (∀ m ∈ ms, DiceValue m) → WellFormedTerm (.pool n (.die d) (ms.map .modifier))

/-- A pool that ends with its constants would be read as a sum. -/
inductive WellFormed : Node → Prop where
  | term {r : Node} : WellFormedTerm r → WellFormed r
  | pool {n : Int} {d : Die} {ms : List Modifier} : Numeric n → WellFormedDie d →
      (∀ m ∈ ms, DiceValue m ∨ ConstantValue m) → Interrupted ms →
      WellFormed (.pool n (.die d) (ms.map .modifier))
  | sum {r : Node} {terms : List (Sign × Node)} : WellFormedTerm r → terms ≠ [] →
      (∀ term ∈ terms, WellFormedTerm term.2) →
      WellFormed (.sum ((.known .plus, r) :: terms.map fun term => (.known term.1, term.2)))

theorem wellFormedTerm_of_mem {r : Node} {terms : List (Sign × Node)} (h : WellFormedTerm r)
    (hterms : ∀ term ∈ terms, WellFormedTerm term.2) :
    ∀ t ∈ ((.known .plus, r) :: terms.map fun term => (.known term.1, term.2) : List Dice.Term),
      WellFormedTerm t.2 := by
  refine List.forall_mem_cons.mpr ⟨h, fun t ht => ?_⟩
  obtain ⟨term, hterm, rfl⟩ := List.mem_map.mp ht
  exact hterms term hterm

/-! ## Values of words -/

theorem numeral_natCast (n : Nat) : Text.numeral n = Nat.toDigits 10 n := by
  simp [Text.numeral]

theorem numeric_of_number {ds : List Char} {n : Nat} (h : Number ds n) : Numeric n := by
  obtain ⟨hne, hdigits, hlen, hpos⟩ := h
  refine ⟨by omega, ?_⟩
  rw [numeral_natCast]
  exact Nat.le_trans (Text.length_toDigits_ofDigits_le hne hdigits) hlen

theorem numeric_of_count {ds : List Char} {n : Nat} (h : Count ds n) : Numeric n := by
  cases h with
  | missing => exact ⟨by decide, by decide⟩
  | written h => exact numeric_of_number h

theorem wellFormedDie_of_face {cs : List Char} {d : Die} (h : Face cs d) : WellFormedDie d := by
  cases h with
  | fudge => exact .fudge
  | percent => exact .percent
  | sided h => exact .sided (numeric_of_number h)

theorem diceValue_onMatch {cs : List Char} {p : Relation × Nat} (h : Comparison cs p) {t : Trigger}
    (ht : t ≠ .general) : DiceValue (.onMatch t (point p)) := by
  obtain ⟨r, hn⟩ := h
  exact .onMatch r ht (numeric_of_number hn)

theorem diceValue_of_word {cs : List Char} {m : Modifier} (h : DiceModifier cs m) :
    DiceValue m := by
  cases h with
  | keepHighest hn => exact .keep true (numeric_of_count hn)
  | keepLowest hn => exact .keep false (numeric_of_count hn)
  | dropHighest hn => exact .drop true (numeric_of_count hn)
  | dropLowest hn => exact .drop false (numeric_of_count hn)
  | rerollOnce hp => exact diceValue_onMatch hp (by decide)
  | rerollWhile hp => exact diceValue_onMatch hp (by decide)
  | explode hp => exact diceValue_onMatch hp (by decide)
  | compound hp => exact diceValue_onMatch hp (by decide)
  | success hp => exact diceValue_onMatch hp (by decide)
  | failure hp => exact diceValue_onMatch hp (by decide)

theorem constantValue_of_word {cs : List Char} {m : Modifier} (h : Adjustment cs m) :
    ConstantValue m := by
  obtain ⟨s, hn⟩ := h
  exact .adjust s (numeric_of_number hn)

theorem ConstantValue.not_diceValue {m : Modifier} (h : ConstantValue m) : ¬ DiceValue m := by
  cases h
  rintro ⟨⟩

theorem value_of_word {cs : List Char} {m : Modifier} (h : AnyModifier cs m) :
    DiceValue m ∨ ConstantValue m := by
  cases h with
  | dice h => exact .inl (diceValue_of_word h)
  | adjustment h => exact .inr (constantValue_of_word h)

theorem value_of_pool {cs : List Char} {p : Pool Modifier}
    (h : Spaced (PoolWord AnyModifier) cs p) : ∀ m ∈ p.modifiers, DiceValue m ∨ ConstantValue m := by
  obtain ⟨_, ⟨_, _, hwords⟩, _⟩ := h
  refine hwords.forall ?_
  rintro _ m ⟨_, hm, _⟩
  exact value_of_word hm

theorem diceModifier_of_value {cs : List Char} {m : Modifier} (h : AnyModifier cs m)
    (hm : DiceValue m) : DiceModifier cs m := by
  cases h with
  | dice h => exact h
  | adjustment h => exact absurd hm (constantValue_of_word h).not_diceValue

theorem adjustment_of_value {cs : List Char} {m : Modifier} (h : AnyModifier cs m)
    (hm : ConstantValue m) : Adjustment cs m := by
  cases h with
  | dice h => exact absurd (diceValue_of_word h) hm.not_diceValue
  | adjustment h => exact h

theorem wellFormedTerm_of_word {cs : List Char} {r : Node} (h : TermWord cs r) :
    WellFormedTerm r := by
  cases h with
  | constant h =>
    obtain ⟨hn⟩ := h
    exact .constant (numeric_of_number hn)
  | pool h =>
    obtain ⟨hn, hd, hms⟩ := h
    refine .pool (numeric_of_count hn) (wellFormedDie_of_face hd) (hms.forall ?_)
    rintro _ m ⟨_, hm, _⟩
    exact diceValue_of_word hm

/-! ## Constants among modifiers -/

/-- Modifiers of dice, then constants, then whatever follows from the next modifier of dice on. -/
structure Blocks (ms dice constants rest : List Modifier) : Prop where
  eq_append : ms = dice ++ (constants ++ rest)
  dice_value : ∀ m ∈ dice, DiceValue m
  constants_ne_nil : constants ≠ []
  constant_value : ∀ m ∈ constants, ConstantValue m
  rest_head : ∀ m, rest.head? = some m → DiceValue m

theorem dice_or_blocks {ms : List Modifier} (h : ∀ m ∈ ms, DiceValue m ∨ ConstantValue m) :
    (∀ m ∈ ms, DiceValue m) ∨ ∃ dice constants rest, Blocks ms dice constants rest := by
  induction ms with
  | nil => exact .inl fun _ hm => absurd hm List.not_mem_nil
  | cons m ms ih =>
    obtain ⟨hm, hms⟩ := List.forall_mem_cons.mp h
    have hnone : ∀ m ∈ ([] : List Modifier), DiceValue m := by simp
    rcases hm with hm | hm
    · rcases ih hms with hall | ⟨dice, constants, rest, heq, hdice, hne, hconst, hrest⟩
      · exact .inl (List.forall_mem_cons.mpr ⟨hm, hall⟩)
      · exact .inr ⟨m :: dice, constants, rest, by rw [heq]; rfl,
          List.forall_mem_cons.mpr ⟨hm, hdice⟩, hne, hconst, hrest⟩
    · rcases ih hms with hall | ⟨dice, constants, rest, heq, hdice, hne, hconst, hrest⟩
      · refine .inr ⟨[], [m], ms, rfl, hnone, by simp, by simpa using hm, ?_⟩
        exact fun m' hm' => hall m' (List.mem_of_head? hm')
      · cases dice with
        | nil =>
          exact .inr ⟨[], m :: constants, rest, by rw [heq]; rfl, hnone, by simp,
            List.forall_mem_cons.mpr ⟨hm, hconst⟩, hrest⟩
        | cons d dice =>
          -- a modifier of dice follows at once, so this constant is a block by itself
          refine .inr ⟨[], [m], ms, rfl, hnone, by simp, by simpa using hm, ?_⟩
          rw [heq]
          rintro m' ⟨⟩
          exact hdice _ List.mem_cons_self

variable {ms dice constants rest : List Modifier}

theorem Blocks.interrupted (b : Blocks ms dice constants rest) (h : rest ≠ []) :
    Interrupted ms := by
  obtain ⟨rfl, _, hne, hconst, hrest⟩ := b
  cases rest with
  | nil => exact absurd rfl h
  | cons m after =>
    cases constants with
    | nil => exact absurd rfl hne
    | cons s between =>
      exact ⟨dice, s, between, m, after, rfl, hconst s List.mem_cons_self, hrest m rfl⟩

/-- Where nothing follows the constants no modifier of dice stands behind one. -/
theorem Blocks.rest_ne_nil (b : Blocks ms dice constants rest) (h : Interrupted ms) :
    rest ≠ [] := by
  obtain ⟨hblocks, hdice, _, hconst, _⟩ := b
  rintro rfl
  obtain ⟨before, s, between, m, after, hms, hs, hm⟩ := h
  have hsorted : ms.Pairwise fun a b => ConstantValue a → ¬ DiceValue b := by
    rw [hblocks, List.append_nil, List.pairwise_append]
    refine ⟨List.pairwise_of_forall_mem_list ?_, List.pairwise_of_forall_mem_list ?_, ?_⟩
    · exact fun a ha _ _ hca => absurd (hdice a ha) hca.not_diceValue
    · exact fun _ _ b hb _ => (hconst b hb).not_diceValue
    · exact fun a ha _ _ hca => absurd (hdice a ha) hca.not_diceValue
  rw [hms, List.pairwise_append, List.pairwise_cons] at hsorted
  exact hsorted.2.1.1 m (by simp) hs hm

/-! ## Readings of pools -/

/-- A constant with its sign: a modifier of a pool, or a term of a sum. -/
abbrev Amount : Type := Sign × Int

def Amount.modifier (a : Amount) : Modifier :=
  .adjust (.known a.1) a.2

def Amount.term (a : Amount) : Sign × Node :=
  (a.1, .constant a.2)

theorem signedTerms_of_adjustments {ws : List Char} (h : Repeated (Spaced Adjustment) ws ms) :
    ∃ amounts : List Amount, ms = amounts.map Amount.modifier ∧
      Repeated (SignedTerm ConstantWord) ws (amounts.map Amount.term) := by
  induction h with
  | nil => exact ⟨[], rfl, .nil⟩
  | cons hu _ ih =>
    obtain ⟨amounts, hms, hterms⟩ := ih
    obtain ⟨hu, hv, hw⟩ := hu
    obtain ⟨s, hn⟩ := hv
    rename_i u w ds n
    have hsign : SignWord [s.char] s := rfl
    have hterm := SignedTerm.intro (.intro hu hsign Parser.blanks_nil)
      (Spaced.intro Parser.blanks_nil (ConstantWord.intro hn) hw)
    refine ⟨(s, (n : Int)) :: amounts, by rw [hms]; rfl, ?_⟩
    simpa [Amount.term] using Repeated.cons hterm hterms

/-- A pool without constants is a sum of one term. -/
theorem arithmetic_of_dice {cs : List Char} {p : Pool Modifier}
    (h : Spaced (PoolWord AnyModifier) cs p) (hdice : ∀ m ∈ p.modifiers, DiceValue m) :
    Arithmetic cs p.node := by
  obtain ⟨hu, ⟨hn, hd, hwords⟩, hw⟩ := h
  have hterm := PoolWord.intro hn hd
    (hwords.mono fun _ m hm h => h.mono fun _ h' => diceModifier_of_value h' (hdice m hm))
  exact .single (.intro hu (.pool hterm) hw)

/-- A pool that ends with its constants can be read as a sum, with the constants as its terms. -/
theorem arithmetic_of_blocks {cs : List Char} {n : Nat} {d : Die}
    (h : Spaced (PoolWord AnyModifier) cs ⟨n, d, ms⟩) (b : Blocks ms dice constants []) :
    ∃ amounts : List Amount, ms = dice ++ amounts.map Amount.modifier ∧
      Arithmetic cs (.sum ((.known .plus, .pool n (.die d) (dice.map .modifier)) ::
        (amounts.map Amount.term).map fun term => (.known term.1, term.2))) := by
  obtain ⟨hms, hdice, hne, hconst, _⟩ := b
  obtain ⟨hu, hv, hw⟩ := h
  rename_i u v w
  obtain ⟨hn, hd, hwords⟩ := hv
  rename_i us vs ws
  rw [hms, List.append_nil] at hwords
  obtain ⟨dw, cw, rfl, hdw, hcw⟩ := hwords.split
  have hpool := PoolWord.intro hn hd
    (hdw.mono fun _ m hm h => h.mono fun _ h' => diceModifier_of_value h' (hdice m hm))
  have hadjust : Repeated (Spaced Adjustment) cw constants :=
    hcw.mono fun _ m hm h => h.mono fun _ h' => adjustment_of_value h' (hconst m hm)
  -- the blanks at the end of the text belong to the last constant
  obtain ⟨amounts, rfl, hterms⟩ := signedTerms_of_adjustments (hadjust.append_blanks hne hw)
  have hterms_ne : amounts.map Amount.term ≠ [] := by simpa using hne
  have hsum := Arithmetic.sum (Spaced.intro hu (TermWord.pool hpool) Parser.blanks_nil)
    (hterms.mono fun _ _ _ h => h.mono fun _ _ => .constant) hterms_ne
  exact ⟨amounts, by rw [hms, List.append_nil], by simpa [Pool.node] using hsum⟩

/-! ## The image of reading -/

theorem wellFormed_of_arithmetic {cs : List Char} {r : Node} (h : Arithmetic cs r) :
    WellFormed r := by
  cases h with
  | single h =>
    obtain ⟨_, hv, _⟩ := h
    exact .term (wellFormedTerm_of_word hv)
  | sum h hterms hne =>
    obtain ⟨_, hv, _⟩ := h
    refine .sum (wellFormedTerm_of_word hv) hne (hterms.forall ?_)
    rintro _ _ ⟨_, _, hr, _⟩
    exact wellFormedTerm_of_word hr

theorem wellFormed_of_basic {cs : List Char} {r : Node} (h : Basic cs r)
    (hnot : ¬ ∃ r', Arithmetic cs r') : WellFormed r := by
  obtain ⟨h⟩ := h
  rename_i p
  have hms := value_of_pool h
  obtain ⟨n, d, ms, hn, hd, rfl⟩ : ∃ (n : Nat) (d : Die) (ms : List Modifier), Numeric n ∧
      WellFormedDie d ∧ p = ⟨n, d, ms⟩ := by
    obtain ⟨_, hv, _⟩ := h
    obtain ⟨hn, hd, _⟩ := hv
    exact ⟨_, _, _, numeric_of_count hn, wellFormedDie_of_face hd, rfl⟩
  rcases dice_or_blocks hms with hdice | ⟨dice, constants, rest, hblocks⟩
  · exact .term (.pool hn hd hdice)
  · refine .pool hn hd hms (hblocks.interrupted ?_)
    rintro rfl
    obtain ⟨_, _, hsum⟩ := arithmetic_of_blocks h hblocks
    exact hnot ⟨_, hsum⟩

theorem wellFormed_of_read {text : String} {r : Node} (h : Grammar.read text = .ok r) :
    WellFormed r := by
  rcases denotes_of_read h with h | ⟨hnot, h⟩
  · exact wellFormed_of_arithmetic h
  · exact wellFormed_of_basic h hnot

end Notation

end Dice
