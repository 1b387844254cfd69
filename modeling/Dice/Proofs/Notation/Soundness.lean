import Dice.Proofs.Notation.Language

/-!
# Dice.Proofs.Notation.Soundness

What the parsers of the grammar read are words of the notation, with the values that they have
there.

* `reads_diceModifier`, `reads_pool`, `reads_rollTerm` : modifiers, pools and terms;
* `reads_arithmeticRoll`, `reads_basicRoll` : whole rolls;
* `reads_whole` : a parser that reaches the end has read the whole of the text.
-/

namespace Dice

open Dice.Parser (Cursor Spaced)
open Dice.Grammar

namespace Notation

variable {α : Type}

/-! ## Symbols -/

theorem reads_symbols (char : α → Char) (as : List α) :
    (Parser.alternative (as.map (symbolOf char))).Reads fun u a => u = [char a] := by
  refine Parser.reads_alternative ?_
  intro p hp
  obtain ⟨a, _, rfl⟩ := List.mem_map.mp hp
  refine (Parser.reads_map _ (Parser.reads_satisfy _ _)).mono ?_
  rintro u b ⟨c, ⟨rfl, hc⟩, rfl⟩
  simpa using hc

theorem reads_comparisonPoint : comparisonPoint.Reads Comparison := by
  refine Parser.reads_attempt ?_
  refine (Parser.reads_andThen (reads_symbols _ _) Parser.reads_positiveInt).mono ?_
  rintro u ⟨r, n⟩ ⟨_, ds, rfl, rfl, hn⟩
  exact .intro r hn

theorem reads_sign : sign.Reads SignWord :=
  reads_symbols _ _

theorem reads_count : (Parser.optional Parser.positiveInt 1).Reads Count := by
  refine (Parser.reads_optional Parser.reads_positiveInt 1).mono ?_
  rintro u n (hn | ⟨rfl, rfl⟩)
  · exact .written hn
  · exact .missing

/-! ## Modifiers -/

variable {L : List Char → Modifier → Prop}

theorem reads_countModifier (letters : String) (make : Int → Modifier)
    (hL : ∀ ds n, Count ds n → L (letters.toList ++ ds) (make n)) :
    (countModifier letters make).Reads (Spaced L) := by
  refine Parser.reads_token ?_
  refine (Parser.reads_map _ (Parser.reads_andThen (Parser.reads_string _) reads_count)).mono ?_
  rintro u m ⟨⟨_, n⟩, ⟨_, ds, rfl, ⟨rfl, _⟩, hn⟩, rfl⟩
  exact hL ds n hn

theorem reads_comparisonModifier (letters : String) (trigger : Trigger)
    (hL : ∀ cs p, Comparison cs p → L (letters.toList ++ cs) (.onMatch trigger (point p))) :
    (comparisonModifier letters trigger).Reads (Spaced L) := by
  refine Parser.reads_token ?_
  refine (Parser.reads_map _
    (Parser.reads_andThen (Parser.reads_string _) reads_comparisonPoint)).mono ?_
  rintro u m ⟨⟨_, p⟩, ⟨_, cs, rfl, ⟨rfl, _⟩, hp⟩, rfl⟩
  exact hL cs p hp

theorem reads_success : success.Reads (Spaced DiceModifier) := by
  refine Parser.reads_token ?_
  refine (Parser.reads_map _ reads_comparisonPoint).mono ?_
  rintro u m ⟨p, hp, rfl⟩
  exact .success hp

theorem reads_diceModifier : diceModifier.Reads (Spaced DiceModifier) := by
  refine Parser.reads_alternative ?_
  simp only [List.forall_mem_cons, List.not_mem_nil, false_implies, implies_true, and_true]
  exact ⟨reads_countModifier _ _ fun _ _ => .keepHighest,
    reads_countModifier _ _ fun _ _ => .keepLowest,
    reads_countModifier _ _ fun _ _ => .dropHighest,
    reads_countModifier _ _ fun _ _ => .dropLowest,
    reads_comparisonModifier _ _ fun _ _ => .rerollOnce,
    reads_comparisonModifier _ _ fun _ _ => .rerollWhile,
    reads_comparisonModifier _ _ fun _ _ => .explode,
    reads_comparisonModifier _ _ fun _ _ => .compound,
    reads_success,
    reads_comparisonModifier _ _ fun _ _ => .failure⟩

theorem reads_constantModifier : constantModifier.Reads (Spaced Adjustment) := by
  refine Parser.reads_token ?_
  refine (Parser.reads_map _ (Parser.reads_andThen reads_sign Parser.reads_positiveInt)).mono ?_
  rintro u m ⟨⟨s, n⟩, ⟨_, ds, rfl, rfl, hn⟩, rfl⟩
  exact .intro s hn

theorem reads_modifier : modifier.Reads (Spaced AnyModifier) := by
  refine Parser.reads_alternative ?_
  simp only [List.forall_mem_cons, List.not_mem_nil, false_implies, implies_true, and_true]
  exact ⟨reads_diceModifier.mono fun _ _ h => h.mono fun _ => .dice,
    reads_constantModifier.mono fun _ _ h => h.mono fun _ => .adjustment⟩

/-! ## Rolls -/

theorem reads_dieType : dieType.Reads Face := by
  refine Parser.reads_alternative ?_
  simp only [List.forall_mem_cons, List.not_mem_nil, false_implies, implies_true, and_true]
  refine ⟨(Parser.reads_map _ (Parser.reads_satisfy _ _)).mono ?_,
    (Parser.reads_map _ (Parser.reads_satisfy _ _)).mono ?_,
    (Parser.reads_map _ Parser.reads_positiveInt).mono ?_⟩
  · rintro u d ⟨c, ⟨rfl, hc⟩, rfl⟩
    obtain rfl : c = 'F' := by simpa using hc
    exact .fudge
  · rintro u d ⟨c, ⟨rfl, hc⟩, rfl⟩
    obtain rfl : c = '%' := by simpa using hc
    exact .percent
  · rintro u d ⟨n, hn, rfl⟩
    exact .sided hn

theorem reads_pool {p : Parser Modifier} (hp : p.Reads (Spaced L)) :
    (pool p).Reads (Spaced (PoolWord L)) := by
  refine Parser.reads_token ?_
  refine (Parser.reads_map _ (Parser.reads_andThen (Parser.reads_andThen
    (Parser.reads_andThen reads_count (Parser.reads_satisfy _ _)) reads_dieType)
    (Parser.reads_many hp))).mono ?_
  rintro u q ⟨⟨⟨⟨n, c⟩, d⟩, ms⟩, ⟨_, ws, rfl, ⟨_, vs, rfl, ⟨us, _, rfl, hn, rfl, hc⟩, hd⟩, hms⟩, rfl⟩
  obtain rfl : c = 'd' := by simpa using hc
  simpa using PoolWord.intro hn hd hms

theorem reads_constant : constant.Reads Term := by
  refine Parser.reads_token ?_
  refine (Parser.reads_map _ Parser.reads_positiveInt).mono ?_
  rintro u r ⟨n, hn, rfl⟩
  exact .constant (.intro hn)

theorem reads_rollTerm : rollTerm.Reads Term := by
  refine Parser.reads_alternative ?_
  simp only [List.forall_mem_cons, List.not_mem_nil, false_implies, implies_true, and_true]
  refine ⟨(Parser.reads_map _ (reads_pool reads_diceModifier)).mono ?_, reads_constant⟩
  rintro u r ⟨p, ⟨hu, hv, hw⟩, rfl⟩
  exact .intro hu (.pool hv) hw

theorem reads_signedTerm : (arithmeticSign.andThen rollTerm).Reads (SignedTerm TermWord) := by
  refine (Parser.reads_andThen (Parser.reads_token reads_sign) reads_rollTerm).mono ?_
  rintro u ⟨s, r⟩ ⟨_, _, rfl, hs, hr⟩
  exact .intro hs hr

theorem reads_arithmeticRoll : arithmeticRoll.Reads Arithmetic := by
  refine (Parser.reads_map _
    (Parser.reads_andThen reads_rollTerm (Parser.reads_many reads_signedTerm))).mono ?_
  rintro u r ⟨⟨first, terms⟩, ⟨v, w, rfl, hfirst, hterms⟩, rfl⟩
  cases terms with
  | nil =>
    cases hterms
    rw [List.append_nil]
    exact .single hfirst
  | cons term terms => exact .sum hfirst hterms (by simp)

theorem reads_basicRoll : basicRoll.Reads Basic := by
  refine (Parser.reads_map _ (reads_pool reads_modifier)).mono ?_
  rintro u r ⟨p, hp, rfl⟩
  exact .intro hp

/-! ## Whole texts -/

/-- The end of the input is found nowhere else than there. -/
theorem reads_whole {p : Parser α} {L : List Char → α → Prop} (hp : p.Reads L) {size : Nat}
    {rest : List Char} (hs : rest.length ≤ size) {a : α} {next : Cursor}
    (h : (complete p).run (.before size rest) = .success a next) : L rest a := by
  simp only [complete, Parser.map, Parser.andThen] at h
  cases hr : p.run (.before size rest) with
  | success b mid =>
    obtain ⟨used, left, rfl, rfl, hL⟩ := hp.success hs hr
    rw [hr] at h
    cases left with
    | nil =>
      cases h
      rw [List.append_nil]
      exact hL
    | cons c left => cases h
  | failure expected offset => rw [hr] at h; cases h
  | overlong digits => rw [hr] at h; cases h

end Notation

end Dice
