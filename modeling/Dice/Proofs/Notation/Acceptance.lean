import Dice.Proofs.Notation.Completeness
import Dice.Proofs.Notation.Soundness

/-!
# Dice.Proofs.Notation.Acceptance

Which texts are read as rolls, and as which.

* `denotes_of_read` : a text that is read as a roll denotes it;
* `read_of_denotes` : a text that denotes a roll is read as it;
* `read_invalid` : every other text is refused, with the place where the reading as a sum stops;
* `read_iff_denotes` : all of it together.
-/

namespace Dice

open Dice.Parser (Blanks Cursor Number ShortRuns Spaced)
open Dice.Grammar

namespace Notation

variable {α : Type}

/-! ## Reaching the end -/

theorem takes_complete {p : Parser α} {cs : List Char} {a : α} (h : p.Takes cs a []) :
    (complete p).Takes cs a [] :=
  (h.andThen Parser.takes_endOfInput).map _

theorem reads_complete {p : Parser α} {L : List Char → α → Prop} (hp : p.Reads L) :
    (complete p).Reads L := by
  refine (Parser.reads_map _ (Parser.reads_andThen hp Parser.reads_endOfInput)).mono ?_
  rintro u a ⟨⟨b, _⟩, ⟨v, _, rfl, hv, rfl⟩, rfl⟩
  rw [List.append_nil]
  exact hv

/-- Where no word is the whole of a text the end is not reached. -/
theorem fails_complete {p : Parser α} {L : List Char → α → Prop} (hp : p.Reads L) {cs : List Char}
    (hshort : ShortRuns cs) (h : ∀ a, ¬ L cs a) : (complete p).Fails cs := by
  intro size hs
  cases hr : (complete p).run (.before size cs) with
  | success a next => exact absurd (reads_whole hp hs hr) (h a)
  | failure expected offset => exact ⟨expected, offset, rfl⟩
  | overlong digits => exact absurd hr ((reads_complete hp).not_overlong hs hshort)

/-! ## Blanks in front of a text -/

theorem trimStart_split (cs : List Char) :
    cs.takeWhile Text.isBlank ++ Text.trimStart cs = cs :=
  List.takeWhile_append_dropWhile

theorem blanks_takeWhile (cs : List Char) : Blanks (cs.takeWhile Text.isBlank) :=
  fun _ hc => List.mem_takeWhile_imp hc

theorem shortRuns_trimStart {cs : List Char} (h : ShortRuns cs) : ShortRuns (Text.trimStart cs) := by
  rw [← trimStart_split cs] at h
  exact h.of_append

theorem arithmetic_of_trimStart {cs : List Char} {r : Node} (h : Arithmetic (Text.trimStart cs) r) :
    Arithmetic cs r := by
  rw [← trimStart_split cs]
  exact h.of_blanks_append (blanks_takeWhile cs)

theorem basic_of_trimStart {cs : List Char} {r : Node} (h : Basic (Text.trimStart cs) r) :
    Basic cs r := by
  rw [← trimStart_split cs]
  exact h.of_blanks_append (blanks_takeWhile cs)

/-! ## Readings of a text -/

/-- The cursor at the start of a text. -/
theorem ofText_zero (cs : List Char) : Cursor.ofText cs 0 = .before cs.length cs := by
  rw [Cursor.ofText_eq_before (Nat.zero_le _), List.drop_zero]

theorem read_of_takes {text : String} {r : Node} {left : List Char}
    (h : roll.Takes text.toList r left) : Grammar.read text = .ok r := by
  have hr := h.2 text.toList.length (Nat.le_refl _)
  unfold Grammar.read
  rw [ofText_zero, hr]

theorem takes_roll_arithmetic {cs : List Char} {r : Node}
    (h : (complete arithmeticRoll).Takes (Text.trimStart cs) r []) : roll.Takes cs r [] :=
  ((Parser.takes_whitespace cs).andThen (h.attempt.alternative_cons _)).map _

theorem takes_roll_basic {cs : List Char} {r : Node}
    (hnot : (complete arithmeticRoll).Fails (Text.trimStart cs))
    (h : (complete basicRoll).Takes (Text.trimStart cs) r []) : roll.Takes cs r [] :=
  ((Parser.takes_whitespace cs).andThen
    (hnot.attempt.alternative_cons (h.attempt.alternative_cons _))).map _

theorem map_success {β : Type} {o : Parser.Outcome α} {f : α → β} {b : β} {next : Cursor}
    (h : o.map f = .success b next) : ∃ a, o = .success a next ∧ f a = b := by
  cases o with
  | success a mid => cases h; exact ⟨a, rfl, rfl⟩
  | failure expected offset => cases h
  | overlong digits => cases h

theorem success_roll {size : Nat} {cs : List Char} (hs : cs.length ≤ size) {r : Node} {next : Cursor}
    (h : roll.run (.before size cs) = .success r next) :
    (Parser.alternative [Parser.attempt (complete arithmeticRoll),
      Parser.attempt (complete basicRoll), complete constant]).run
        (.before size (Text.trimStart cs)) = .success r next := by
  have hblanks := (Parser.takes_whitespace cs).2 size hs
  simp only [roll, Parser.map, Parser.andThen, hblanks] at h
  obtain ⟨_, h', hr⟩ := map_success h
  obtain ⟨r', hchoice, rfl⟩ := map_success h'
  rw [← hr]
  exact hchoice

theorem success_attempt {p : Parser α} {c next : Cursor} {a : α}
    (h : (Parser.attempt p).run c = .success a next) : p.run c = .success a next := by
  simp only [Parser.attempt] at h
  cases hr : p.run c with
  | success b mid => rw [hr] at h; exact h
  | failure expected offset => rw [hr] at h; cases h
  | overlong digits => rw [hr] at h; cases h

/-- The reading as a constant alone is a reading as a sum. -/
theorem denotes_of_read {text : String} {r : Node} (h : Grammar.read text = .ok r) :
    Denotes text.toList r := by
  have hs := Parser.length_trimStart_le text.toList
  obtain ⟨next, hroll⟩ : ∃ next, roll.run (.before text.toList.length text.toList) =
      .success r next := by
    unfold Grammar.read at h
    rw [ofText_zero] at h
    cases hr : roll.run (.before text.toList.length text.toList) with
    | success r' next =>
      rw [hr] at h
      cases h
      exact ⟨next, rfl⟩
    | failure expected offset => rw [hr] at h; cases h
    | overlong digits => rw [hr] at h; cases h
  have hchoice := success_roll (Nat.le_refl _) hroll
  rcases Parser.success_alternative_cons hchoice with hsum | ⟨⟨expected, offset, hnot⟩, hchoice⟩
  · exact .inl (arithmetic_of_trimStart (reads_whole reads_arithmeticRoll hs (success_attempt hsum)))
  rcases Parser.success_alternative_cons hchoice with hpool | ⟨_, hchoice⟩
  · refine .inr ⟨?_, basic_of_trimStart (reads_whole reads_basicRoll hs (success_attempt hpool))⟩
    rintro ⟨r', hr'⟩
    have htake := (takes_complete (takes_arithmeticRoll hr')).attempt.2 _ hs
    cases hnot.symm.trans htake
  rcases Parser.success_alternative_cons hchoice with hconstant | ⟨_, hchoice⟩
  · exact .inl (arithmetic_of_trimStart (.single (reads_whole reads_constant hs hconstant)))
  · cases hchoice

theorem read_of_denotes {text : String} (hshort : ShortRuns text.toList) {r : Node}
    (h : Denotes text.toList r) : Grammar.read text = .ok r := by
  rcases h with h | ⟨hnot, h⟩
  · exact read_of_takes (takes_roll_arithmetic (takes_complete (takes_arithmeticRoll h)))
  · have hfails := fails_complete reads_arithmeticRoll (shortRuns_trimStart hshort) fun r' h' =>
      hnot ⟨r', arithmetic_of_trimStart h'⟩
    exact read_of_takes (takes_roll_basic hfails (takes_complete (takes_basicRoll h)))

/-! ## Texts that are refused -/

theorem reads_roll : roll.Reads fun _ _ => True := by
  have hchoices : ∀ p ∈ [Parser.attempt (complete arithmeticRoll),
      Parser.attempt (complete basicRoll), complete constant], p.Reads fun _ _ => True := by
    simp only [List.forall_mem_cons, List.not_mem_nil, false_implies, implies_true, and_true]
    exact ⟨(Parser.reads_attempt (reads_complete reads_arithmeticRoll)).mono fun _ _ _ => trivial,
      (Parser.reads_attempt (reads_complete reads_basicRoll)).mono fun _ _ _ => trivial,
      (reads_complete reads_constant).mono fun _ _ _ => trivial⟩
  exact (Parser.reads_map _ (Parser.reads_andThen Parser.reads_whitespace
    (Parser.reads_alternative hchoices))).mono fun _ _ _ => trivial

/-- The cursor where the reading as a sum starts. -/
theorem ofText_trimStart (cs : List Char) :
    Cursor.ofText cs (cs.length - (Text.trimStart cs).length) =
      .before cs.length (Text.trimStart cs) := by
  have hlen : (cs.takeWhile Text.isBlank).length = cs.length - (Text.trimStart cs).length := by
    have hsum := congrArg List.length (trimStart_split cs)
    rw [List.length_append] at hsum
    omega
  have hdrop : cs.drop (cs.takeWhile Text.isBlank).length = Text.trimStart cs := by
    have hleft : (cs.takeWhile Text.isBlank ++ Text.trimStart cs).drop
        (cs.takeWhile Text.isBlank).length = Text.trimStart cs := List.drop_left
    rwa [trimStart_split] at hleft
  rw [Cursor.ofText_eq_before (Nat.sub_le _ _), ← hlen, hdrop]

/-- What is said of a text is what the reading as a sum fails with. -/
theorem failureOf_of_failure {text expected : String} {offset : Nat}
    (h : (complete arithmeticRoll).run
      (.before text.toList.length (Text.trimStart text.toList)) = .failure expected offset) :
    failureOf text = .invalid text offset (some expected) := by
  rw [← ofText_trimStart] at h
  unfold failureOf
  -- only the answer counts, and the parser is too large to be looked into
  generalize complete arithmeticRoll = p at h ⊢
  simp only [h]

theorem failureOf_invalid {text : String}
    (h : (complete arithmeticRoll).Fails (Text.trimStart text.toList)) :
    ∃ position expected, failureOf text = .invalid text position (some expected) := by
  obtain ⟨expected, offset, hr⟩ := h text.toList.length (Parser.length_trimStart_le _)
  exact ⟨offset, expected, failureOf_of_failure hr⟩

theorem read_invalid {text : String} (hshort : ShortRuns text.toList)
    (h : ∀ r, ¬ Denotes text.toList r) :
    ∃ position expected, Grammar.read text = .error (.invalid text position (some expected)) := by
  have hnot : ∀ r, ¬ Arithmetic (Text.trimStart text.toList) r :=
    fun r hr => h r (.inl (arithmetic_of_trimStart hr))
  obtain ⟨position, expected, hfailure⟩ :=
    failureOf_invalid (fails_complete reads_arithmeticRoll (shortRuns_trimStart hshort) hnot)
  refine ⟨position, expected, ?_⟩
  cases hread : Grammar.read text with
  | ok r => exact absurd (denotes_of_read hread) (h r)
  | error e =>
    unfold Grammar.read at hread
    rw [ofText_zero] at hread
    cases hr : roll.run (.before text.toList.length text.toList) with
    | success r next => rw [hr] at hread; cases hread
    | failure expected' offset =>
      rw [hr] at hread
      cases hread
      rw [hfailure]
    | overlong digits => exact absurd hr (reads_roll.not_overlong (Nat.le_refl _) hshort)

/-! ## All texts -/

theorem arithmetic_unique {cs : List Char} {r r' : Node} (h : Arithmetic cs r)
    (h' : Arithmetic cs r') : r = r' :=
  ((takes_arithmeticRoll h).unique (takes_arithmeticRoll h')).1

theorem basic_unique {cs : List Char} {r r' : Node} (h : Basic cs r) (h' : Basic cs r') :
    r = r' :=
  ((takes_basicRoll h).unique (takes_basicRoll h')).1

/-- A text is read as the roll that it denotes, which is one at most in each reading, and it is
refused where it denotes none. -/
theorem read_iff_denotes {text : String} (h : ShortRuns text.toList) :
    (∀ r, Grammar.read text = .ok r ↔ Denotes text.toList r) ∧
      (∀ r r', Arithmetic text.toList r → Arithmetic text.toList r' → r = r') ∧
      (∀ r r', Basic text.toList r → Basic text.toList r' → r = r') ∧
      ((∀ r, ¬ Denotes text.toList r) → ∃ position expected,
        Grammar.read text = .error (.invalid text position (some expected))) :=
  ⟨fun _ => ⟨denotes_of_read, read_of_denotes h⟩, fun _ _ => arithmetic_unique,
    fun _ _ => basic_unique, read_invalid h⟩

/-- A keep without a count, a sum, and blanks wherever they may be. -/
theorem read_iff_denotes_spaced_sum :
    ShortRuns " d6 kh + 2 ".toList ∧
      Grammar.read " d6 kh + 2 " = .ok (.sum [
        (.known .plus, .pool 1 (.die (.fresh (.sided 6))) [.modifier (.keep 1 true)]),
        (.known .plus, .constant 2)]) := by
  have htext : " d6 kh + 2 ".toList = [' ', 'd', '6', ' ', 'k', 'h', ' ', '+', ' ', '2', ' '] := rfl
  have hshort : ShortRuns " d6 kh + 2 ".toList := by
    refine Parser.shortRuns_of_length_le ?_
    rw [htext]
    decide
  have hblank : Blanks [' '] := by simp only [Blanks, List.mem_singleton, forall_eq]; decide
  have hsix : Number ['6'] 6 :=
    .intro (by simp) (List.forall_mem_singleton.mpr rfl) (by decide) (by decide)
  have htwo : Number ['2'] 2 :=
    .intro (by simp) (List.forall_mem_singleton.mpr rfl) (by decide) (by decide)
  have hkeep : Spaced DiceModifier [' ', 'k', 'h', ' '] (.keep 1 true) :=
    .intro hblank (DiceModifier.keepHighest .missing) hblank
  have hbody : PoolWord DiceModifier ['d', '6', ' ', 'k', 'h', ' ']
      ⟨1, .fresh (.sided 6), [.keep 1 true]⟩ :=
    .intro .missing (.sided hsix) (.cons hkeep .nil)
  have hpool := Spaced.intro hblank (TermWord.pool hbody) Parser.blanks_nil
  have hsign : SignWord ['+'] .plus := rfl
  have hconstant := Spaced.intro hblank (TermWord.constant (.intro htwo)) hblank
  have hterm := SignedTerm.intro (Spaced.self hsign) hconstant
  refine ⟨hshort, ((read_iff_denotes hshort).1 _).mpr (.inl ?_)⟩
  rw [htext]
  exact .sum hpool (.cons hterm .nil) (by simp)

end Notation

end Dice
