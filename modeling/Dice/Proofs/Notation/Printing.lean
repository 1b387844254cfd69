import Dice.Proofs.Notation.Image

/-!
# Dice.Proofs.Notation.Printing

Rolls written in notation are read back as themselves.

* `printed_term`, `printed_modifiers` : what is written are words of the notation;
* `fails_arithmeticRoll` : a modifier of dice behind constants ends the reading as a sum;
* `read_of_wellFormed` : every well-formed roll is read back from what is written for it;
* `read_print_inverse` : writing and reading are inverse to each other.
-/

namespace Dice

open Dice.Parser (Blanks Number Repeated Spaced)
open Dice.Grammar

namespace Notation

/-! ## Words that are written -/

theorem printed_number {n : Int} (h : Numeric n) :
    ∃ k : Nat, n = k ∧ Number (Text.numeral n) k := by
  obtain ⟨hpos, hlen⟩ := h
  obtain ⟨k, rfl⟩ := Int.eq_ofNat_of_zero_le (by omega : 0 ≤ n)
  refine ⟨k, rfl, ?_⟩
  rw [numeral_natCast] at hlen ⊢
  have hvalue := Text.ofDigits_toDigits k
  have hnumber := Number.intro Nat.toDigits_ne_nil (fun _ => Text.isDigit_of_mem_toDigits) hlen
    (by omega)
  rwa [hvalue] at hnumber

theorem printed_die {d : Die} (h : WellFormedDie d) : Face d.chars d := by
  cases h with
  | percent => exact .percent
  | fudge => exact .fudge
  | sided h =>
    obtain ⟨k, rfl, hk⟩ := printed_number h
    exact .sided hk

theorem printed_diceValue {m : Modifier} (h : DiceValue m) :
    ∃ cs, m.chars? = some cs ∧ DiceModifier cs m := by
  cases h with
  | keep highest hn =>
    obtain ⟨k, rfl, hk⟩ := printed_number hn
    cases highest with
    | true => exact ⟨_, rfl, .keepHighest (.written hk)⟩
    | false => exact ⟨_, rfl, .keepLowest (.written hk)⟩
  | drop highest hn =>
    obtain ⟨k, rfl, hk⟩ := printed_number hn
    cases highest with
    | true => exact ⟨_, rfl, .dropHighest (.written hk)⟩
    | false => exact ⟨_, rfl, .dropLowest (.written hk)⟩
  | @onMatch t n r ht hn =>
    obtain ⟨k, rfl, hk⟩ := printed_number hn
    have hp := Comparison.intro r hk
    cases t with
    | rerollOnce => exact ⟨_, rfl, .rerollOnce hp⟩
    | rerollWhile => exact ⟨_, rfl, .rerollWhile hp⟩
    | explode => exact ⟨_, rfl, .explode hp⟩
    | compound => exact ⟨_, rfl, .compound hp⟩
    | success => exact ⟨_, rfl, .success hp⟩
    | failure => exact ⟨_, rfl, .failure hp⟩
    | general => exact absurd rfl ht

theorem printed_modifier {m : Modifier} (h : DiceValue m ∨ ConstantValue m) :
    ∃ cs, m.chars? = some cs ∧ AnyModifier cs m := by
  rcases h with h | h
  · obtain ⟨cs, hcs, hword⟩ := printed_diceValue h
    exact ⟨cs, hcs, .dice hword⟩
  · obtain ⟨s, hn⟩ := h
    obtain ⟨k, rfl, hk⟩ := printed_number hn
    exact ⟨_, rfl, .adjustment (.intro s hk)⟩

theorem printed_modifiers {ms : List Modifier} (h : ∀ m ∈ ms, DiceValue m ∨ ConstantValue m) :
    ∃ ws, Node.charsAll? (ms.map .modifier) = some ws ∧ Repeated AnyModifier ws ms := by
  induction ms with
  | nil => exact ⟨[], rfl, .nil⟩
  | cons m ms ih =>
    obtain ⟨hm, hms⟩ := List.forall_mem_cons.mp h
    obtain ⟨cs, hcs, hword⟩ := printed_modifier hm
    obtain ⟨ws, hws, hwords⟩ := ih hms
    refine ⟨cs ++ ws, ?_, .cons hword hwords⟩
    simp only [List.map_cons, Node.charsAll?, Node.chars?, hcs, hws]

/-- The count of a pool is always written. -/
theorem printed_pool {n : Int} (d : Die) {ms : List Modifier} (hn : Numeric n)
    (hms : ∀ m ∈ ms, DiceValue m ∨ ConstantValue m) :
    ∃ (k : Nat) (us ws : List Char), n = k ∧ Count us k ∧ Repeated AnyModifier ws ms ∧
      (Node.pool n (.die d) (ms.map .modifier)).chars? = some (us ++ 'd' :: (d.chars ++ ws)) := by
  obtain ⟨k, rfl, hk⟩ := printed_number hn
  obtain ⟨ws, hws, hwords⟩ := printed_modifiers hms
  refine ⟨k, _, ws, rfl, .written hk, hwords, ?_⟩
  simp only [Node.chars?, hws]

theorem printed_term {r : Node} (h : WellFormedTerm r) :
    ∃ cs, r.chars? = some cs ∧ TermWord cs r := by
  cases h with
  | constant hn =>
    obtain ⟨k, rfl, hk⟩ := printed_number hn
    exact ⟨_, rfl, .constant (.intro hk)⟩
  | pool hn hd hms =>
    obtain ⟨k, us, ws, rfl, hk, hwords, hcs⟩ := printed_pool _ hn fun m hm => .inl (hms m hm)
    refine ⟨_, hcs, .pool (.intro hk (printed_die hd) ?_)⟩
    exact hwords.mono fun _ m hm h => Spaced.self (diceModifier_of_value h (hms m hm))

theorem printed_terms {terms : List (Sign × Node)}
    (h : ∀ term ∈ terms, WellFormedTerm term.2) :
    ∃ ws, Node.charsTerms? false (terms.map fun term => (.known term.1, term.2)) = some ws ∧
      Repeated (SignedTerm TermWord) ws terms := by
  induction terms with
  | nil => exact ⟨[], rfl, .nil⟩
  | cons term terms ih =>
    obtain ⟨s, r⟩ := term
    obtain ⟨hr, hterms⟩ := List.forall_mem_cons.mp h
    obtain ⟨cs, hcs, hword⟩ := printed_term hr
    obtain ⟨ws, hws, hwords⟩ := ih hterms
    have hsign : SignWord [s.char] s := rfl
    have hterm := SignedTerm.intro (Spaced.self hsign) (Spaced.self hword)
    refine ⟨_, ?_, .cons hterm hwords⟩
    have hchar : Node.signChars? false (.known s) = some [s.char] := by cases s <;> rfl
    simp only [List.map_cons, Node.charsTerms?, hchar, hcs, hws, List.append_assoc]

/-! ## Pools that are no sums -/

theorem refuses_dieType {c : Char} {cs : List Char} (hdigit : Text.isDigit c = false)
    (hfudge : c ≠ 'F') (hpercent : c ≠ '%') : dieType.Refuses (c :: cs) := by
  refine Parser.refuses_alternative ?_
  simp only [List.forall_mem_cons, List.not_mem_nil, false_implies, implies_true, and_true]
  exact ⟨(Parser.refuses_char (show _ = ['F'] from rfl) (by simpa using hfudge)).map _,
    (Parser.refuses_char (show _ = ['%'] from rfl) (by simpa using hpercent)).map _,
    (Parser.refuses_positiveInt (Parser.stops_cons hdigit)).map _⟩

/-- What drops dice is not mistaken for a die. -/
theorem apart_diceModifier {v : List Char} {m : Modifier} (h : DiceModifier v m)
    (more : List Char) : Apart (v ++ more) := by
  refine ⟨(marked_diceModifier h).stops_append more, ?_⟩
  cases h with
  | dropHighest =>
    rintro _ ⟨⟩
    exact (refuses_dieType rfl (by decide) (by decide)).fails
  | dropLowest =>
    rintro _ ⟨⟩
    exact (refuses_dieType rfl (by decide) (by decide)).fails
  | success hp =>
    obtain ⟨r, _⟩ := hp
    cases r <;> rintro _ ⟨⟩
  | _ => rintro _ ⟨⟩

theorem diceModifier_ne_sign {v : List Char} {m : Modifier} (h : DiceModifier v m)
    (more : List Char) (s : Sign) : (v ++ more).head? ≠ some s.char := by
  cases h with
  | success hp =>
    obtain ⟨r, _⟩ := hp
    cases r <;> cases s <;> simp [Relation.char, Sign.char]
  | _ => cases s <;> simp [Sign.char]

theorem apart_blanks_append {w more : List Char} (hw : Blanks w) (h : Apart more) :
    Apart (w ++ more) := by
  refine ⟨stops_blanks_append hw h.1, ?_⟩
  cases w with
  | nil => exact h.2
  | cons c w =>
    rintro rest ⟨⟩
    exact absurd (hw 'd' List.mem_cons_self) (by decide)

theorem lexes_constantTerm : rollTerm.Lexes (Spaced ConstantWord) Apart :=
  Parser.lexes_spaced (fun _ _ _ _ => takes_constantTerm) (fun _ _ => solid_constantWord)
    fun _ _ => apart_blanks_append

/-- The sum ends where the modifier begins, and that is not the end of the text. -/
theorem fails_arithmeticRoll {us vs ws cw v : List Char} {n : Nat} {d : Die}
    {dice : List Modifier} {terms : List (Sign × Node)} {m : Modifier} (hn : Count us n)
    (hd : Face vs d) (hdice : Repeated (Spaced DiceModifier) ws dice)
    (hterms : Repeated (SignedTerm ConstantWord) cw terms) (hne : terms ≠ [])
    (hm : DiceModifier v m) (more : List Char) :
    (complete arithmeticRoll).Fails (us ++ 'd' :: (vs ++ ws) ++ (cw ++ (v ++ more))) := by
  have hpool := PoolWord.intro hn hd hdice
  have hsolid := (marked_diceModifier hm).solid
  have hstart := (solid_poolWord hpool).trimStart_append (cw ++ (v ++ more))
  have hend := hsolid.trimStart_append more
  have hclosed : Closes (cw ++ (v ++ more)) := by
    cases hterms with
    | nil => exact absurd rfl hne
    | cons hu _ =>
      rw [List.append_assoc]
      exact closes_signedTerm hu _
  have hrefuses : (arithmeticSign.andThen rollTerm).Refuses (Text.trimStart (v ++ more)) := by
    refine refuses_signedTerm ?_
    rw [hend, hend]
    exact diceModifier_ne_sign hm more
  have hall := (lexes_signedTerm lexes_constantTerm).takesAll (fun _ _ => inked_signedTerm)
    (fun _ _ more h => (closes_signedTerm h more).apart) hterms (apart_diceModifier hm more)
    hrefuses
  have hfirst := takes_poolTerm hpool hstart hclosed
  have hsum := (hfirst.andThen hall.many).map collapse
  have hleft : Text.trimStart (v ++ more) ≠ [] := by
    obtain ⟨c, rest, rfl, _⟩ := hsolid
    rw [hend]
    simp
  exact (hsum.andThen_fails (Parser.fails_endOfInput hleft)).map _

/-- A pool in which a modifier of dice stands behind a constant is no sum. -/
theorem fails_of_blocks {cs : List Char} {n : Nat} {d : Die}
    {ms dice constants rest : List Modifier} (h : Spaced (PoolWord AnyModifier) cs ⟨n, d, ms⟩)
    (b : Blocks ms dice constants rest) (hrest : rest ≠ []) :
    (complete arithmeticRoll).Fails (Text.trimStart cs) := by
  obtain ⟨hms, hdice, hne, hconst, hhead⟩ := b
  obtain ⟨m, after, rfl⟩ := List.exists_cons_of_ne_nil hrest
  obtain ⟨hu, hv, hw⟩ := h
  rename_i u v w
  have hsolid := solid_poolWord hv
  obtain ⟨hn, hd, hwords⟩ := hv
  rename_i us vs ws
  -- the text is cut where the blocks of its modifiers are
  rw [hms] at hwords
  obtain ⟨dw, _, rfl, hdw, hafter⟩ := hwords.split
  obtain ⟨cw, _, rfl, hcw, hlast⟩ := hafter.split
  obtain _ | ⟨⟨hu', hm, hw'⟩, hmore⟩ := hlast
  rename_i more u' v' w'
  have hadjust : Repeated (Spaced Adjustment) cw constants :=
    hcw.mono fun _ s hs h => h.mono fun _ h' => adjustment_of_value h' (hconst s hs)
  obtain ⟨amounts, rfl, hterms⟩ := signedTerms_of_adjustments (hadjust.append_blanks hne hu')
  have hfails := fails_arithmeticRoll hn hd
    (hdw.mono fun _ d hd h => h.mono fun _ h' => diceModifier_of_value h' (hdice d hd)) hterms
    (by simpa using hne) (diceModifier_of_value hm (hhead m rfl)) (w' ++ (more ++ w))
  have hstart := Parser.trimStart_spaced (w := w) hu hsolid []
  rw [List.append_nil, List.append_nil] at hstart
  rw [hstart]
  simpa using hfails

/-! ## Reading what is written -/

theorem text_of_chars {r : Node} {cs : List Char} (h : r.chars? = some cs) :
    r.text? = some (String.ofList cs) := by
  simp only [Node.text?, h, Option.map_some]

theorem read_of_chars {cs : List Char} {r : Node} {left : List Char} (h : roll.Takes cs r left) :
    Grammar.read (String.ofList cs) = .ok r := by
  have htake : roll.Takes (String.ofList cs).toList r left := by rwa [String.toList_ofList]
  exact read_of_takes htake

theorem read_of_arithmetic {cs : List Char} {r : Node} (h : Arithmetic cs r) :
    Grammar.read (String.ofList cs) = .ok r :=
  read_of_chars (takes_roll_arithmetic (takes_complete (takes_arithmeticRoll h)))

/-- An interrupted pool is read as a pool because the sum comes to its end too early. -/
theorem read_of_interrupted {n : Int} {d : Die} {ms : List Modifier} (hn : Numeric n)
    (hd : WellFormedDie d) (hms : ∀ m ∈ ms, DiceValue m ∨ ConstantValue m)
    (hinterrupted : Interrupted ms) :
    ∃ text, (Node.pool n (.die d) (ms.map .modifier)).text? = some text ∧
      Grammar.read text = .ok (.pool n (.die d) (ms.map .modifier)) := by
  obtain ⟨k, us, ws, rfl, hk, hwords, hcs⟩ := printed_pool d hn hms
  have hword := PoolWord.intro hk (printed_die hd) (hwords.mono fun _ _ _ h => Spaced.self h)
  have hbasic := Basic.intro (Spaced.self hword)
  obtain hdice | ⟨dice, constants, rest, hblocks⟩ := dice_or_blocks hms
  · obtain ⟨before, s, between, m, after, hms', hs, _⟩ := hinterrupted
    exact absurd (hdice s (by rw [hms']; simp)) hs.not_diceValue
  have hfails := fails_of_blocks (Spaced.self hword) hblocks (hblocks.rest_ne_nil hinterrupted)
  exact ⟨_, text_of_chars hcs, read_of_chars (takes_roll_basic hfails
    (takes_complete (takes_basicRoll hbasic)))⟩

theorem read_of_wellFormed {r : Node} (h : WellFormed r) :
    ∃ text, r.text? = some text ∧ Grammar.read text = .ok r := by
  cases h with
  | term h =>
    obtain ⟨cs, hcs, hword⟩ := printed_term h
    exact ⟨_, text_of_chars hcs, read_of_arithmetic (.single (Spaced.self hword))⟩
  | pool hn hd hms hinterrupted => exact read_of_interrupted hn hd hms hinterrupted
  | sum h hne hterms =>
    obtain ⟨cs, hcs, hword⟩ := printed_term h
    obtain ⟨ws, hws, hwords⟩ := printed_terms hterms
    refine ⟨_, text_of_chars ?_, read_of_arithmetic (.sum (Spaced.self hword) hwords hne)⟩
    simp only [Node.chars?, Node.charsTerms?, Node.signChars?, hcs, hws, if_true, List.nil_append]

theorem read_of_text {r : Node} (h : WellFormed r) {text : String} (htext : r.text? = some text) :
    Grammar.read text = .ok r := by
  obtain ⟨text', htext', hread⟩ := read_of_wellFormed h
  rw [htext] at htext'
  cases htext'
  exact hread

/-- Reading gives the well-formed rolls and no others, and each is read back from its text; so no
two of them are written alike, and writing what was read changes nothing. -/
theorem read_print_inverse :
    (∀ text r, Grammar.read text = .ok r → WellFormed r) ∧
      (∀ r, WellFormed r → ∃ text, r.text? = some text ∧ Grammar.read text = .ok r) ∧
      (∀ r r', WellFormed r → WellFormed r' → r.text? = r'.text? → r = r') ∧
      (∀ text r, Grammar.read text = .ok r →
        ∃ text', r.text? = some text' ∧ Grammar.read text' = .ok r) := by
  refine ⟨fun _ _ => wellFormed_of_read, fun _ => read_of_wellFormed, ?_,
    fun _ _ h => read_of_wellFormed (wellFormed_of_read h)⟩
  intro r r' h h' heq
  obtain ⟨text, htext, hread⟩ := read_of_wellFormed h
  obtain ⟨text', htext', hread'⟩ := read_of_wellFormed h'
  rw [heq, htext'] at htext
  cases htext
  cases hread.symm.trans hread'
  rfl

/-- The `d` behind the constant drops dice and rolls none. -/
theorem read_print_inverse_interrupted :
    let r : Node := .pool 3 (.die (.fresh (.sided 6)))
      [.modifier (.adjust (.known .plus) 2), .modifier (.drop 1 true)]
    WellFormed r ∧ r.text? = some "3d6+2dh1" ∧ Grammar.read "3d6+2dh1" = .ok r := by
  intro r
  have hone : Numeric 1 := ⟨by decide, by decide⟩
  have htwo : Numeric 2 := ⟨by decide, by decide⟩
  have hplus := ConstantValue.adjust .plus htwo
  have hdrop := DiceValue.drop true hone
  have hms : ∀ m ∈ [Modifier.adjust (.known .plus) 2, .drop 1 true],
      DiceValue m ∨ ConstantValue m := by
    simp only [List.forall_mem_cons, List.not_mem_nil, false_implies, implies_true, and_true]
    exact ⟨.inr hplus, .inl hdrop⟩
  have hwell : WellFormed r :=
    .pool ⟨by decide, by decide⟩ (.sided ⟨by decide, by decide⟩) hms
      ⟨[], _, [], _, [], rfl, hplus, hdrop⟩
  obtain ⟨text, htext, hread⟩ := read_print_inverse.2.1 r hwell
  have hwritten : r.text? = some "3d6+2dh1" := rfl
  rw [hwritten] at htext
  cases htext
  exact ⟨hwell, hwritten, hread⟩

end Notation

end Dice
