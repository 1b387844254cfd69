import Mathlib.Data.List.Forall2
import Dice.Proofs.Notation.Parsers
import Dice.Proofs.Parser.Choosing
import Dice.Proofs.Parser.Nesting

/-!
# Dice.Proofs.Notation.Modifiers

Of the modifiers at most one can be read at a place.

* `diceModifiers`, `allModifiers` : the parsers of the modifiers, one by one.
* `opens_countModifier`, `opens_comparisonModifier`, `opens_success`, `opens_constantModifier` : the
  texts that they begin with.
* `modifier_eq` : the parser of any modifier is one choice of them all.
* `chooses_diceModifier`, `chooses_modifier` : where no run of digits is too long, what they choose.
* `modifiers_disjoint` : the order of the choice makes no difference, and what a repetition reads
  are the only modifiers that one can read up to a place where there are no more.
-/

namespace Dice

open Dice.Parser (AtMostOne Chooses Cursor Exhausts Incomparable Opens ShortRuns Solid)
open Dice.Grammar

namespace Notation

/-- The modifiers of dice, in the order in which they are tried. -/
def diceModifiers : List (Parser Modifier) :=
  [keepHighest, keepLowest, dropHighest, dropLowest, rerollOnce, rerollWhile, explode, compound,
    success, failure]

def allModifiers : List (Parser Modifier) :=
  diceModifiers ++ [constantModifier]

/-! ## The texts they begin with -/

theorem begins_symbols {α : Type} {char : α → Char} {as : List α}
    (h : ∀ a ∈ as, Text.isBlank (char a) = false) :
    (Parser.alternative (as.map (symbolOf char))).Begins (as.map fun a => [char a]) := by
  refine Parser.begins_alternative fun p hp => ?_
  obtain ⟨a, ha, rfl⟩ := List.mem_map.mp hp
  have hbegins : (symbolOf char a).Begins [[char a]] :=
    (Parser.begins_char (String.toList_ofList) (h a ha)).map _
  refine hbegins.mono fun s hs => ?_
  rw [List.mem_singleton.mp hs]
  exact List.mem_map_of_mem ha

theorem begins_comparisonPoint : comparisonPoint.Begins (Relation.all.map fun r => [r.char]) :=
  ((begins_symbols (by decide)).andThen Parser.local_positiveInt).attempt

variable {letters : String}

theorem opens_countModifier (h : Solid letters.toList) (make : Int → Modifier) :
    (countModifier letters make).Opens [letters.toList] := by
  have hbegins := (Parser.begins_string h).andThen (Parser.local_positiveInt.optional 1)
  exact .token (((Parser.Composed.string letters).andThen
    (Parser.Composed.positiveInt.optional 1)).map _) (hbegins.map _)

theorem opens_comparisonModifier (h : Solid letters.toList) (trigger : Trigger) :
    (comparisonModifier letters trigger).Opens [letters.toList] := by
  have hbegins := (Parser.begins_string h).andThen composed_comparisonPoint.isLocal
  exact .token (((Parser.Composed.string letters).andThen composed_comparisonPoint).map _)
    (hbegins.map _)

theorem opens_success : success.Opens (Relation.all.map fun r => [r.char]) :=
  .token (composed_comparisonPoint.map _) (begins_comparisonPoint.map _)

theorem opens_constantModifier : constantModifier.Opens (Sign.all.map fun s => [s.char]) := by
  have hsign : sign.Begins (Sign.all.map fun s => [s.char]) := begins_symbols (by decide)
  exact .token ((composed_sign.andThen Parser.Composed.positiveInt).map _)
    ((hsign.andThen Parser.local_positiveInt).map _)

def diceOpenings : List (List (List Char)) :=
  [["kh".toList], ["kl".toList], ["dh".toList], ["dl".toList], ["ro".toList], ["rc".toList],
    ["!".toList], ["^".toList], Relation.all.map fun r => [r.char], ["f".toList]]

def allOpenings : List (List (List Char)) :=
  diceOpenings ++ [Sign.all.map fun s => [s.char]]

instance decidableSolid : (cs : List Char) → Decidable (Solid cs)
  | [] => .isFalse (by rintro ⟨c, rest, h, _⟩; cases h)
  | c :: cs => decidable_of_iff (Text.isBlank c = false)
    ⟨fun h => ⟨c, cs, rfl, h⟩, by rintro ⟨c, rest, h, hc⟩; cases h; exact hc⟩

theorem opens_diceModifiers : List.Forall₂ Opens diceModifiers diceOpenings :=
  .cons (opens_countModifier (by decide) _) <|
  .cons (opens_countModifier (by decide) _) <|
  .cons (opens_countModifier (by decide) _) <|
  .cons (opens_countModifier (by decide) _) <|
  .cons (opens_comparisonModifier (by decide) _) <|
  .cons (opens_comparisonModifier (by decide) _) <|
  .cons (opens_comparisonModifier (by decide) _) <|
  .cons (opens_comparisonModifier (by decide) _) <|
  .cons opens_success <|
  .cons (opens_comparisonModifier (by decide) _) .nil

theorem opens_allModifiers : List.Forall₂ Opens allModifiers allOpenings :=
  List.rel_append opens_diceModifiers (.cons opens_constantModifier .nil)

/-- No text of one modifier begins a text of another. -/
theorem incomparable_openings :
    allOpenings.Pairwise fun S T => ∀ s ∈ S, ∀ t ∈ T, Incomparable s t := by
  decide

/-! ## The choice -/

section Choice

variable {c : Cursor} {m : Modifier} {next : Cursor}

theorem atMostOne_allModifiers (c : Cursor) : AtMostOne allModifiers c :=
  Parser.atMostOne_of_opens opens_allModifiers incomparable_openings c

theorem atMostOne_diceModifiers (c : Cursor) : AtMostOne diceModifiers c :=
  (List.pairwise_append.mp (atMostOne_allModifiers c)).1

theorem clean_allModifiers (hshort : ShortRuns c.rest) :
    ∀ p ∈ allModifiers, (p.run c).Clean c := by
  intro p hp
  obtain ⟨S, hS, hpS⟩ := Parser.exists_opens opens_allModifiers hp
  have hne : ∀ S ∈ allOpenings, ∀ s ∈ S, s ≠ [] := by decide
  exact hpS.clean (hne S hS) hshort

theorem clean_diceModifiers (hshort : ShortRuns c.rest) :
    ∀ p ∈ diceModifiers, (p.run c).Clean c :=
  fun p hp => clean_allModifiers hshort p (List.mem_append_left _ hp)

theorem success_diceModifier_iff (hshort : ShortRuns c.rest) :
    diceModifier.run c = .success m next ↔ ∃ p ∈ diceModifiers, p.run c = .success m next :=
  Parser.success_alternative_iff (clean_diceModifiers hshort) (atMostOne_diceModifiers c)

theorem chooses_diceModifier : Chooses diceModifier diceModifiers where
  isLocal := composed_diceModifier.isLocal
  clean _ hshort := Parser.clean_alternative (clean_diceModifiers hshort)
  success_iff _ _ _ hshort := success_diceModifier_iff hshort

/-- The choice in the choice makes no difference. -/
theorem modifier_eq : modifier = Parser.alternative allModifiers :=
  Parser.alternative_cons_alternative (List.cons_ne_nil _ _) (List.cons_ne_nil _ _)

theorem success_modifier_iff (hshort : ShortRuns c.rest) :
    modifier.run c = .success m next ↔ ∃ p ∈ allModifiers, p.run c = .success m next := by
  rw [modifier_eq]
  exact Parser.success_alternative_iff (clean_allModifiers hshort) (atMostOne_allModifiers c)

theorem chooses_modifier : Chooses modifier allModifiers where
  isLocal := composed_modifier.isLocal
  clean c hshort := by
    rw [modifier_eq]
    exact Parser.clean_alternative (clean_allModifiers hshort)
  success_iff _ _ _ hshort := success_modifier_iff hshort

/-- Another order is a choice between the same parsers. -/
theorem success_reordered_iff {order : List (Parser Modifier)} (horder : order.Perm allModifiers)
    (hshort : ShortRuns c.rest) :
    (Parser.alternative order).run c = .success m next ↔ modifier.run c = .success m next := by
  have hclean : ∀ p ∈ order, (p.run c).Clean c :=
    fun p hp => clean_allModifiers hshort p (horder.mem_iff.mp hp)
  have hone : AtMostOne order c :=
    (horder.pairwise_iff fun h h' => h h'.symm).mpr (atMostOne_allModifiers c)
  rw [Parser.success_alternative_iff hclean hone, success_modifier_iff hshort]
  exact exists_congr fun p => and_congr_left' horder.mem_iff

end Choice

/-- At every place of a text without too long runs of digits at most one modifier can be read. The
others fail where they start, and the one that is read goes on in the text. So the order in which
they are tried makes no difference, and a repetition of any of them always succeeds: it reads the
only modifiers one after another that end where there are no more. -/
theorem modifiers_disjoint (text : String) (offset : Nat) (hshort : ShortRuns text.toList) :
    let c := Cursor.ofText text.toList offset
    AtMostOne allModifiers c ∧ (∀ p ∈ allModifiers, (p.run c).Clean c) ∧
    (∀ order, order.Perm allModifiers → ∀ m next,
      (Parser.alternative order).run c = .success m next ↔ modifier.run c = .success m next) ∧
    (∃ ms last, (Parser.many modifier).run c = .success ms last ∧ Exhausts allModifiers c ms last ∧
      ∀ ms' last', Exhausts allModifiers c ms' last' → ms' = ms ∧ last' = last) ∧
    ∃ ms last, (Parser.many diceModifier).run c = .success ms last ∧
      Exhausts diceModifiers c ms last ∧
      ∀ ms' last', Exhausts diceModifiers c ms' last' → ms' = ms ∧ last' = last := by
  intro c
  have hrest : ShortRuns c.rest := by
    rw [← List.take_append_drop offset text.toList] at hshort
    exact hshort.of_append
  exact ⟨atMostOne_allModifiers c, clean_allModifiers hrest,
    fun order horder m next => success_reordered_iff horder hrest,
    Parser.exhausts_many chooses_modifier atMostOne_allModifiers hrest,
    Parser.exhausts_many chooses_diceModifier atMostOne_diceModifiers hrest⟩

theorem modifiers_disjoint_tokens :
    ShortRuns "3 kh2>4 +1 ro".toList ∧
    (Parser.many modifier).run (Cursor.ofText "3 kh2>4 +1 ro".toList 1) =
      .success [.keep 2 true, .onMatch .success ⟨.known .greater, 4⟩, .adjust (.known .plus) 1]
        (Cursor.ofText "3 kh2>4 +1 ro".toList 11) ∧
    (Parser.alternative allModifiers.reverse).run (Cursor.ofText "3 kh2>4 +1 ro".toList 1) =
      .success (.keep 2 true) (Cursor.ofText "3 kh2>4 +1 ro".toList 5) ∧
    ∀ ms last, Exhausts allModifiers (Cursor.ofText "3 kh2>4 +1 ro".toList 1) ms last →
      ms.length = 3 := by
  have hshort : ShortRuns "3 kh2>4 +1 ro".toList :=
    Parser.shortRuns_of_length_le (by decide +kernel)
  have hmany : (Parser.many modifier).run (Cursor.ofText "3 kh2>4 +1 ro".toList 1) =
      .success [.keep 2 true, .onMatch .success ⟨.known .greater, 4⟩, .adjust (.known .plus) 1]
        (Cursor.ofText "3 kh2>4 +1 ro".toList 11) := by
    decide +kernel
  obtain ⟨_, _, horder, ⟨ms, last, hrun, _, hunique⟩, _⟩ :=
    modifiers_disjoint "3 kh2>4 +1 ro" 1 hshort
  refine ⟨hshort, hmany, (horder _ (List.reverse_perm _) _ _).mpr (by decide +kernel), ?_⟩
  intro ms' last' h
  rw [hmany] at hrun
  cases hrun
  rw [(hunique ms' last' h).1]
  rfl

end Notation

end Dice
