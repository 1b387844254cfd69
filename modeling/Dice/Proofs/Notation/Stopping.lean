import Dice.Proofs.Notation.Refusal
import Dice.Proofs.Parser.Failing

/-!
# Dice.Proofs.Notation.Stopping

The place where a text stops being dice notation.

* `halts_rollTerm`, `halts_arithmeticSign` : terms and signs fail where they start.
* `Viable` : a text that is a sum, or that is one with a number behind it.
* `halts_sum` : the reading as a sum fails behind such a text only.
* `refused_behind_viable` : so what stands in front of the place of a failure is notation as far as
  it goes.
-/

namespace Dice

open Dice.Parser (Blanks Cursor Number Repeated ShortRuns Spaced)
open Dice.Grammar

namespace Notation

/-! ## Failures of the parts -/

theorem halts_rollTerm : rollTerm.Rewinds := by
  refine Parser.halts_alternative ?_
  simp only [List.forall_mem_cons, List.not_mem_nil, false_implies, implies_true, and_true]
  exact ⟨(Parser.halts_token _).map _, Parser.halts_token _⟩

theorem halts_arithmeticSign : arithmeticSign.Rewinds :=
  Parser.halts_token _

/-- A sign that no term follows. -/
theorem halts_signedTerm :
    (arithmeticSign.andThen rollTerm).Halts fun u => u = [] ∨ ∃ s, Spaced SignWord u s := by
  refine (Parser.halts_andThen (Parser.reads_token reads_sign) halts_arithmeticSign
    halts_rollTerm).mono ?_
  rintro u (hu | ⟨v, w, s, rfl, hs, rfl⟩)
  · exact .inl hu
  · refine .inr ⟨s, ?_⟩
    rw [List.append_nil]
    exact hs

/-! ## Texts that can be completed -/

/-- The text is a sum, or nothing but a number is missing at its end. -/
def Viable (cs : List Char) : Prop :=
  (∃ r, Arithmetic cs r) ∨ ∃ r, Arithmetic (cs ++ ['1']) r

theorem term_one : Term ['1'] (.constant 1) := by
  have hone : Number ['1'] 1 :=
    .intro (by simp) (List.forall_mem_singleton.mpr rfl) (by decide) (by decide)
  exact Spaced.self (.constant (.intro hone))

theorem viable_nil : Viable [] :=
  .inr ⟨_, .single term_one⟩

theorem viable_sign {u v w : List Char} {r : Node} {terms : List (Sign × Node)} {s : Sign}
    (hu : Term u r) (hv : Repeated (SignedTerm TermWord) v terms) (hw : Spaced SignWord w s) :
    Viable (u ++ (v ++ w)) := by
  have hlast : Repeated (SignedTerm TermWord) (w ++ ['1']) [(s, .constant 1)] := by
    have hone : SignedTerm TermWord (w ++ ['1']) (s, .constant 1) := .intro hw term_one
    simpa using Repeated.cons hone .nil
  have hsum := Arithmetic.sum hu (hv.append hlast) (by simp)
  rw [← List.append_assoc, ← List.append_assoc, List.append_assoc u] at hsum
  exact .inr ⟨_, hsum⟩

theorem Viable.of_blanks_append {u cs : List Char} (hu : Blanks u) (h : Viable cs) :
    Viable (u ++ cs) := by
  rcases h with ⟨r, hr⟩ | ⟨r, hr⟩
  · exact .inl ⟨r, hr.of_blanks_append hu⟩
  · refine .inr ⟨r, ?_⟩
    rw [List.append_assoc]
    exact hr.of_blanks_append hu

/-- A first term may be missing, or one behind a sign, or there is more behind the last term than
belongs to it. -/
theorem halts_sum : (complete arithmeticRoll).Halts Viable := by
  have hterms := Parser.halts_many reads_signedTerm halts_signedTerm
  have hroll : arithmeticRoll.Halts Viable := by
    refine ((Parser.halts_andThen reads_rollTerm halts_rollTerm hterms).map collapse).mono ?_
    rintro u (rfl | ⟨v, w, r, rfl, hfirst, v', w', terms, rfl, hrepeated, hw, hne⟩)
    · exact viable_nil
    · obtain ⟨s, hs⟩ := hw.resolve_left hne
      exact viable_sign hfirst hrepeated hs
  refine ((Parser.halts_andThen reads_arithmeticRoll hroll Parser.halts_endOfInput).map _).mono ?_
  rintro u (hu | ⟨v, w, r, rfl, hr, rfl⟩)
  · exact hu
  · refine .inl ⟨r, ?_⟩
    rw [List.append_nil]
    exact hr

/-! ## Whole texts -/

theorem read_of_arithmetic_ofList {cs : List Char} {r : Node} (h : Arithmetic cs r) :
    Grammar.read (String.ofList cs) = .ok r := by
  have htakes : roll.Takes (String.ofList cs).toList r [] := by
    rw [String.toList_ofList]
    exact takes_roll_arithmetic (takes_complete (takes_arithmeticRoll h))
  exact read_of_takes htakes

theorem failure_of_refused {text : String} (hshort : ShortRuns text.toList)
    (h : ∀ r, Grammar.read text ≠ .ok r) :
    ∃ expected offset, (complete arithmeticRoll).run
        (.before text.toList.length (Text.trimStart text.toList)) = .failure expected offset ∧
      Grammar.read text = .error (.invalid text offset (some expected)) := by
  cases hr : roll.run (Cursor.ofText text.toList 0) with
  | success r next =>
    refine absurd ?_ (h r)
    unfold Grammar.read
    rw [hr]
  | failure expected offset =>
    have hread : Grammar.read text = .error (failureOf text) := by
      unfold Grammar.read
      rw [hr]
    rw [ofText_zero] at hr
    obtain ⟨expected, offset, hsum⟩ := failure_roll (Nat.le_refl _) hr
    exact ⟨expected, offset, hsum, hread.trans (congrArg _ (failureOf_of_failure hsum))⟩
  | overlong count =>
    rw [ofText_zero] at hr
    exact absurd hr (reads_roll.not_overlong (Nat.le_refl _) hshort)

/-- A text that is refused, and has no run of digits that is too long, is refused at a place behind
the blanks that it starts with and not behind its end. The text in front of this place is read as a
roll, or it is with a one put behind it. -/
theorem refused_behind_viable {text : String} (hshort : ShortRuns text.toList)
    (h : ∀ r, Grammar.read text ≠ .ok r) :
    ∃ position expected, Grammar.read text = .error (.invalid text position (some expected)) ∧
      (text.toList.takeWhile Text.isBlank).length ≤ position ∧
      position ≤ text.toList.length ∧
      ((∃ r, Grammar.read (String.ofList (text.toList.take position)) = .ok r) ∨
        ∃ r, Grammar.read (String.ofList (text.toList.take position ++ ['1'])) = .ok r) := by
  obtain ⟨expected, offset, hsum, hread⟩ := failure_of_refused hshort h
  obtain ⟨used, left, hused, hoffset, hviable⟩ :=
    halts_sum _ _ expected offset (Parser.length_trimStart_le _) hsum
  have hblanks := blanks_takeWhile text.toList
  have htext := trimStart_split text.toList
  generalize text.toList.takeWhile Text.isBlank = blanks at hblanks htext ⊢
  rw [hused, ← List.append_assoc] at htext
  have hposition : offset = (blanks ++ used).length := by
    rw [hoffset, ← htext]
    simp only [Cursor.before, List.length_append]
    omega
  have htake : text.toList.take offset = blanks ++ used := by
    rw [hposition, ← htext, List.take_left]
  refine ⟨offset, expected, hread, ?_, ?_, ?_⟩
  · rw [hposition, List.length_append]
    omega
  · rw [hposition, ← htext]
    simp only [List.length_append]
    omega
  · rw [htake]
    rcases hviable.of_blanks_append hblanks with ⟨r, hr⟩ | ⟨r, hr⟩
    · exact .inl ⟨r, read_of_arithmetic_ofList hr⟩
    · exact .inr ⟨r, read_of_arithmetic_ofList hr⟩

/-- A sign is read with the blanks behind it, and then there is no term. -/
theorem refused_behind_viable_sign :
    let text := " 2d6kh + x"
    ShortRuns text.toList ∧ (∀ r, Grammar.read text ≠ .ok r) ∧
      ∃ expected, Grammar.read text = .error (.invalid text 9 (some expected)) ∧
        ((∃ r, Grammar.read (String.ofList (text.toList.take 9)) = .ok r) ∨
          ∃ r, Grammar.read (String.ofList (text.toList.take 9 ++ ['1'])) = .ok r) := by
  intro text
  have hshort : ShortRuns text.toList := Parser.shortRuns_of_length_le (by decide +kernel)
  have hplace : (match Grammar.read text with
      | .error (.invalid _ position _) => position == 9
      | _ => false) = true := by decide +kernel
  have hrefused : ∀ r, Grammar.read text ≠ .ok r := by
    intro r hr
    rw [hr] at hplace
    cases hplace
  obtain ⟨position, expected, hread, _, _, hviable⟩ := refused_behind_viable hshort hrefused
  rw [hread] at hplace
  obtain rfl : position = 9 := by simpa using hplace
  exact ⟨hshort, hrefused, expected, hread, hviable⟩

end Notation

end Dice
