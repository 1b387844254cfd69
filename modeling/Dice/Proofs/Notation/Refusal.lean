import Dice.Proofs.Notation.Acceptance
import Dice.Proofs.Notation.Parsers

/-!
# Dice.Proofs.Notation.Refusal

Texts of any kind, and how they are refused.

* `advances_roll`, `advances_pattern` : the parser of whole rolls, and all expressions over the
  combinators, only go on in a text, and are stopped by nothing but a long run of digits.
* `failure_roll` : a text that is no roll is no sum in particular.
* `read_or_refused` : so every text is read, or refused as no notation, or holds a long run of
  digits; and everywhere in a text every parser answers, or finds such a run ahead.
* `read_of_long_run`, `answer_positiveInt_of_long_run` : a text that starts with a long run of
  digits is refused for that, and the parser of numbers has no answer there.
-/

namespace Dice

open Dice.Parser (Cursor LongRun)
open Dice.Grammar

namespace Notation

theorem advances_roll : roll.Advances :=
  composed_roll.advances

theorem advances_pattern (p : Pattern) : p.parser.Advances :=
  (composed_pattern p).advances

/-! ## Texts that are no rolls -/

theorem map_failure {α β : Type} {o : Parser.Outcome α} {f : α → β} {expected : String}
    {offset : Nat} (h : o.map f = .failure expected offset) : o = .failure expected offset := by
  cases o with
  | success a next => cases h
  | failure expected offset => cases h; rfl
  | overlong digits => cases h

/-- The reading as a sum is tried first, so it has failed. -/
theorem failure_roll {size : Nat} {cs : List Char} (hs : cs.length ≤ size) {expected : String}
    {offset : Nat} (h : roll.run (.before size cs) = .failure expected offset) :
    ∃ expected offset, (complete arithmeticRoll).run (.before size (Text.trimStart cs)) =
      .failure expected offset := by
  have hblanks := (Parser.takes_whitespace cs).2 size hs
  simp only [roll, Parser.map, Parser.andThen, hblanks] at h
  have hchoice := map_failure (map_failure h)
  simp only [Parser.alternative, Parser.runFirst, Parser.attempt] at hchoice
  cases hr : (complete arithmeticRoll).run (.before size (Text.trimStart cs)) with
  | success r next => rw [hr] at hchoice; cases hchoice
  | failure expected offset => exact ⟨expected, offset, rfl⟩
  | overlong digits => rw [hr] at hchoice; cases hchoice

/-- Every text is read, or it is refused as no notation, with the place where it stops being one and
what was expected there, unless a run of digits in it is too long. Likewise every parser has an
answer everywhere in a text and behind it, unless such a run stands ahead. -/
theorem read_or_refused (text : String) :
    ((∃ r, Grammar.read text = .ok r) ∨
      (∃ position expected,
        Grammar.read text = .error (.invalid text position (some expected))) ∨
      ∃ count, Grammar.read text = .error (.overlong count) ∧ LongRun text.toList count) ∧
    ∀ (p : Pattern) (offset : Nat), (∃ answer, p.parser.answer text offset = .ok answer) ∨
      ∃ count, p.parser.answer text offset = .error (.overlong count) ∧
        LongRun (text.toList.drop offset) count := by
  constructor
  · unfold Grammar.read
    cases hr : roll.run (Cursor.ofText text.toList 0) with
    | success r next => exact .inl ⟨r, rfl⟩
    | failure expected offset =>
      rw [ofText_zero] at hr
      obtain ⟨expected, offset, hsum⟩ := failure_roll (Nat.le_refl _) hr
      exact .inr (.inl ⟨offset, expected, congrArg _ (failureOf_of_failure hsum)⟩)
    | overlong count => exact .inr (.inr ⟨count, rfl, advances_roll.longRun hr⟩)
  · intro p offset
    unfold Parser.answer
    cases hr : p.parser.run (Cursor.ofText text.toList offset) with
    | success value next => exact .inl ⟨_, rfl⟩
    | failure expected offset => exact .inl ⟨_, rfl⟩
    | overlong count => exact .inr ⟨count, rfl, (advances_pattern p).longRun hr⟩

/-! ## Texts that start with a long run of digits -/

/-- Whatever follows them, the digits are taken for a number first of all. -/
theorem balks_roll {ds more : List Char} (hdigits : ∀ c ∈ ds, Text.isDigit c = true)
    (hlong : Text.digitLimit < ds.length) (hmore : Parser.Stops Text.isDigit more) :
    roll.Balks (ds ++ more) ds.length := by
  have hne : ds ≠ [] := List.ne_nil_of_length_pos (by omega)
  have htrim := (solid_digits hne hdigits).trimStart_append more
  have hnumber := Parser.balks_positiveInt hdigits hlong hmore
  have hpool : (pool diceModifier).Balks (ds ++ more) ds.length := by
    refine Parser.Balks.token ?_
    rw [htrim]
    exact ((((hnumber.optional 1).andThen _).andThen _).andThen _).map _
  have hterm : rollTerm.Balks (ds ++ more) ds.length := (hpool.map _).alternative_cons _
  have hsum : (complete arithmeticRoll).Balks (ds ++ more) ds.length :=
    (((hterm.andThen _).map _).andThen _).map _
  have hblanks := Parser.takes_whitespace (ds ++ more)
  rw [htrim] at hblanks
  exact (hblanks.andThen_balks (hsum.attempt.alternative_cons _)).map _

theorem read_of_long_run {ds more : List Char} (hdigits : ∀ c ∈ ds, Text.isDigit c = true)
    (hlong : Text.digitLimit < ds.length) (hmore : Parser.Stops Text.isDigit more) :
    Grammar.read (String.ofList (ds ++ more)) = .error (.overlong ds.length) := by
  have hbalks := balks_roll hdigits hlong hmore (ds ++ more).length (Nat.le_refl _)
  unfold Grammar.read
  rw [String.toList_ofList, ofText_zero, hbalks]

theorem answer_positiveInt_of_long_run {ds more : List Char}
    (hdigits : ∀ c ∈ ds, Text.isDigit c = true) (hlong : Text.digitLimit < ds.length)
    (hmore : Parser.Stops Text.isDigit more) :
    (Rule.parser .positiveInt).answer (String.ofList (ds ++ more)) 0 =
      .error (.overlong ds.length) := by
  have hbalks := Parser.balks_positiveInt hdigits hlong hmore
  have hrule := hbalks.map (fun n => Value.number n) (ds ++ more).length (Nat.le_refl _)
  unfold Parser.answer
  rw [String.toList_ofList, ofText_zero, Rule.parser, hrule]

/-- So many zeros are no notation, but they are not refused as that, and the parser of numbers has
no answer to them. -/
theorem read_many_zeros :
    let text := String.ofList (List.replicate 4301 '0')
    Grammar.read text = .error (.overlong 4301) ∧
      (Rule.parser .positiveInt).answer text 0 = .error (.overlong 4301) := by
  have hdigits : ∀ c ∈ List.replicate 4301 '0', Text.isDigit c = true := by
    intro c hc
    rw [(List.mem_replicate.mp hc).2]
    decide
  have hlen : (List.replicate 4301 '0').length = 4301 := List.length_replicate
  have hlong : Text.digitLimit < (List.replicate 4301 '0').length := by rw [hlen]; decide
  have hread := read_of_long_run hdigits hlong (Parser.stops_nil _)
  have hanswer := answer_positiveInt_of_long_run hdigits hlong (Parser.stops_nil _)
  rw [List.append_nil, hlen] at hread hanswer
  exact ⟨hread, hanswer⟩

end Notation

end Dice
