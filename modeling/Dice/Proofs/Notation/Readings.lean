import Dice.Proofs.Evaluation.Safety
import Dice.Proofs.Evaluation.Sum

/-!
# Dice.Proofs.Notation.Readings

Constants at the end of a pool mean the same in both readings of a text.

* `Amount.value`, `Amount.event`, `amountSum` : what constants contribute.
* `evaluate_pool_amounts`, `evaluate_sum_amounts` : constants as modifiers of a pool, and as terms
  behind it, add their sum to its value.
* `same_or_amounts` : texts that have both readings differ in nothing but this.
* `readings_agree` : so both make the same requests and come to the same value.
-/

namespace Dice

namespace Notation

open Dice.Parser (Blanks Cursor Number Repeated Spaced)
open Dice.Grammar
open Evaluation

/-! ## Constants behind a pool -/

def Amount.value (a : Amount) : Int :=
  a.1.apply a.2

def Amount.event (a : Amount) : Event :=
  .summary .constant a.value

def amountSum (amounts : List Amount) : Int :=
  (amounts.map Amount.value).sum

theorem amountSum_cons (a : Amount) (amounts : List Amount) :
    amountSum (a :: amounts) = a.value + amountSum amounts :=
  List.sum_cons

theorem applyAll_amounts (limits : Limits) (amounts : List Amount) (pool : Option (List Bool))
    (events : List Event) :
    applyAll limits (amounts.map Amount.modifier) pool events =
      .done (events ++ amounts.map Amount.event) := by
  induction amounts generalizing pool events with
  | nil => simp [applyAll]
  | cons a amounts ih =>
    rw [List.map_cons, applyAll, Amount.modifier, applyModifier, Draws.done_bind, ih, adjust,
      List.append_assoc]
    rfl

/-- Whatever is counted before, constants are only added to it. -/
theorem applyAll_append_amounts (limits : Limits) (modifiers : List Modifier)
    (amounts : List Amount) (pool : Option (List Bool)) (events : List Event) :
    applyAll limits (modifiers ++ amounts.map Amount.modifier) pool events =
      (applyAll limits modifiers pool events).bind fun after =>
        .done (after ++ amounts.map Amount.event) := by
  induction modifiers generalizing pool events with
  | nil => exact applyAll_amounts limits amounts pool events
  | cons m modifiers ih =>
    rw [List.cons_append, applyAll, applyAll, Draws.bind_assoc]
    exact congrArg _ (funext fun _ => ih _ _)

theorem keptSum_amounts (amounts : List Amount) :
    keptSum (amounts.map Amount.event) = amountSum amounts := by
  induction amounts with
  | nil => rfl
  | cons a amounts ih =>
    rw [amountSum_cons, ← ih]
    rfl

theorem evaluate_pool_amounts (limits : Limits) (count : Int) (die : Node)
    (modifiers : List Modifier) (amounts : List Amount) :
    (Node.pool count die
        ((modifiers ++ amounts.map Amount.modifier).map .modifier)).evaluate limits =
      ((Node.pool count die (modifiers.map .modifier)).evaluate limits).bind fun e =>
        .done ⟨e.value + amountSum amounts, e.events ++ amounts.map Amount.event⟩ := by
  have hlast : ∀ m ∈ amounts.map Amount.modifier, m.phase = .finalization := by
    intro m hm
    obtain ⟨a, _, rfl⟩ := List.mem_map.mp hm
    rfl
  rw [Node.evaluate, Node.evaluate, evaluatePool_map, evaluatePool_map, phased_append hlast]
  cases poolDie? die with
  | none => rfl
  | some d =>
    simp only [Draws.bind_assoc, applyAll_append_amounts, Draws.done_bind, keptSum_append,
      keptSum_amounts]

theorem evaluateTerms_amounts (limits : Limits) (amounts : List Amount) (number : Nat)
    (sum : Evaluation) : ∃ events,
    Node.evaluateTerms limits number sum
      ((amounts.map Amount.term).map fun term => (.known term.1, term.2)) =
        .done ⟨sum.value + amountSum amounts, events⟩ := by
  induction amounts generalizing number sum with
  | nil => exact ⟨sum.events, by simp [Node.evaluateTerms, amountSum]⟩
  | cons a amounts ih =>
    obtain ⟨events, hevents⟩ := ih (number + 1) ⟨sum.value + a.value,
      sum.events ++ [Event.summary .constant a.2].map (inGroup number a.1)⟩
    refine ⟨events, ?_⟩
    rw [amountSum_cons, ← Int.add_assoc]
    exact hevents

theorem evaluate_sum_amounts (limits : Limits) (n : Node) (amounts : List Amount) :
    ∃ events : Evaluation → List Event,
      (Node.sum ((.known .plus, n) ::
        (amounts.map Amount.term).map fun term => (.known term.1, term.2))).evaluate limits =
          (n.evaluate limits).bind fun e => .done ⟨e.value + amountSum amounts, events e⟩ := by
  have hterms (e : Evaluation) := evaluateTerms_amounts limits amounts 1
    ⟨0 + Sign.plus.apply e.value, [] ++ e.events.map (inGroup 0 .plus)⟩
  choose events hevents using hterms
  refine ⟨events, ?_⟩
  rw [Node.evaluate, Node.evaluateTerms]
  refine congrArg _ (funext fun e => (hevents e).trans ?_)
  simp [Sign.apply, Sign.factor]

/-! ## Two readings of a text -/

/-- Where the readings of a text start. -/
def readingStart (text : String) : Cursor :=
  Cursor.ofText text.toList (text.toList.length - (Text.trimStart text.toList).length)

theorem denoted_of_reading {p : Parser Node} {L : List Char → Node → Prop} (hp : p.Reads L)
    {text : String} {r : Node} {next : Cursor}
    (h : (complete p).run (readingStart text) = .success r next) :
    L (Text.trimStart text.toList) r := by
  rw [readingStart, ofText_trimStart] at h
  exact reads_whole hp (Parser.length_trimStart_le _) h

theorem reading_of_takes {p : Parser Node} {text : String} {r : Node}
    (h : p.Takes (Text.trimStart text.toList) r []) :
    (complete p).run (readingStart text) = .success r (.before text.toList.length []) := by
  rw [readingStart, ofText_trimStart]
  exact (takes_complete h).2 _ (Parser.length_trimStart_le _)

/-- If there are constants in a text that has both readings, no other modifier is behind them. -/
theorem same_or_amounts {cs : List Char} {r r' : Node} (h : Arithmetic cs r) (h' : Basic cs r') :
    r = r' ∨ ∃ (count : Int) (die : Node) (dice : List Modifier) (amounts : List Amount),
      r = .sum ((.known .plus, .pool count die (dice.map .modifier)) ::
        (amounts.map Amount.term).map fun term => (.known term.1, term.2)) ∧
      r' = .pool count die ((dice ++ amounts.map Amount.modifier).map .modifier) := by
  obtain ⟨hpool⟩ := h'
  rename_i p
  obtain ⟨n, d, ms⟩ := p
  rcases dice_or_blocks (value_of_pool hpool) with hdice | ⟨dice, constants, rest, hblocks⟩
  · exact .inl (arithmetic_unique h (arithmetic_of_dice hpool hdice))
  · -- a modifier of dice behind the constants would end the sum before the end of the text
    have hrest : rest = [] := by
      by_contra hrest
      obtain ⟨_, _, hfails⟩ := fails_of_blocks hpool hblocks hrest _ (Nat.le_refl _)
      rw [(takes_complete (takes_arithmeticRoll h)).2 _ (Nat.le_refl _)] at hfails
      cases hfails
    rw [hrest] at hblocks
    obtain ⟨amounts, hamounts, hsum⟩ := arithmetic_of_blocks hpool hblocks
    refine .inr ⟨n, .die d, dice, amounts, arithmetic_unique h hsum, ?_⟩
    rw [hamounts]
    rfl

theorem map_value_eq (limits : Limits) {cs : List Char} {r r' : Node} (h : Arithmetic cs r)
    (h' : Basic cs r') {σ : Type} [RandomSource σ] (s : σ) :
    ((r.evaluate limits).run s).map Evaluation.value =
      ((r'.evaluate limits).run s).map Evaluation.value := by
  rcases same_or_amounts h h' with rfl | ⟨count, die, dice, amounts, rfl, rfl⟩
  · rfl
  · obtain ⟨events, hsum⟩ :=
      evaluate_sum_amounts limits (.pool count die (dice.map .modifier)) amounts
    have hpool := evaluate_pool_amounts limits count die dice amounts
    rw [hsum, hpool, Draws.run_map, Draws.run_map, Run.map_map, Run.map_map]
    rfl

/-- Where a text can be read as a sum and as one pool, both rolls make the same requests and give
the same warnings, and they come to the same value or fail with the same failure of the source. -/
theorem readings_agree {text : String} {r r' : Node} {next next' : Cursor}
    (h : (complete arithmeticRoll).run (readingStart text) = .success r next)
    (h' : (complete basicRoll).run (readingStart text) = .success r' next') (limits : Limits)
    {σ : Type} [RandomSource σ] (s : σ) :
    let run := (r.evaluate limits).run s
    let run' := (r'.evaluate limits).run s
    run.requests = run'.requests ∧ run.warnings = run'.warnings ∧ run.source = run'.source ∧
      run.result.map Evaluation.value = run'.result.map Evaluation.value ∧
      ((∃ e, run.result = .ok e) ∨ ∃ err, run.result = .error (.source err)) := by
  intro run run'
  have hsum := denoted_of_reading reads_arithmeticRoll h
  have hpool := denoted_of_reading reads_basicRoll h'
  obtain ⟨hresult, hsource, hrequests, hwarnings⟩ :=
    Run.map_eq_map_iff.mp (map_value_eq limits hsum hpool s)
  refine ⟨hrequests, hwarnings, hsource, hresult, ?_⟩
  have hknown := known_of_wellFormed (wellFormed_of_arithmetic hsum)
  rcases (faultless_evaluate limits hknown).run s with ⟨e, he⟩ | ⟨_, _, err, _, _, herr⟩
  · exact .inl ⟨e, he⟩
  · exact .inr ⟨err, herr⟩

/-- Whether a six was rolled, less one. -/
theorem readings_agree_counted :
    let success : Modifier := .onMatch .success ⟨.known .equal, 6⟩
    let sum : Node := .sum [(.known .plus, .pool 1 (.die (.fresh (.sided 6))) [.modifier success]),
      (.known .minus, .constant 1)]
    let pool : Node := .pool 1 (.die (.fresh (.sided 6)))
      [.modifier success, .modifier (.adjust (.known .minus) 1)]
    let left : Cursor := .before 7 []
    let run := (sum.evaluate .standard).run (Source.script [6] 0)
    let run' := (pool.evaluate .standard).run (Source.script [6] 0)
    (complete arithmeticRoll).run (readingStart "d6=6 -1") = .success sum left ∧
      (complete basicRoll).run (readingStart "d6=6 -1") = .success pool left ∧
      run.requests = run'.requests ∧ run.result.map Evaluation.value = .ok 0 ∧
      run'.result.map Evaluation.value = .ok 0 := by
  intro success sum pool left run run'
  have htext : "d6=6 -1".toList = ['d', '6', '=', '6', ' ', '-', '1'] := rfl
  have hblank : Blanks [' '] := by simp only [Blanks, List.mem_singleton, forall_eq]; decide
  have hone : Number ['1'] 1 :=
    .intro (by simp) (List.forall_mem_singleton.mpr rfl) (by decide) (by decide)
  have hsix : Number ['6'] 6 :=
    .intro (by simp) (List.forall_mem_singleton.mpr rfl) (by decide) (by decide)
  have hsuccess : DiceModifier ['=', '6'] success := .success (.intro .equal hsix)
  have hspaced : Spaced DiceModifier ['=', '6', ' '] success :=
    .intro Parser.blanks_nil hsuccess hblank
  have hsum : Arithmetic "d6=6 -1".toList sum := by
    have hsign : SignWord ['-'] .minus := rfl
    have hconstant := TermWord.constant (.intro hone)
    have hterm := SignedTerm.intro (Spaced.self hsign) (Spaced.self hconstant)
    rw [htext]
    exact .sum (Spaced.self (.pool (.intro .missing (.sided hsix) (.cons hspaced .nil))))
      (.cons hterm .nil) (by simp)
  have hpool : Basic "d6=6 -1".toList pool := by
    have hadjust : Spaced AnyModifier ['-', '1'] (.adjust (.known .minus) 1) :=
      Spaced.self (.adjustment (.intro .minus hone))
    have hmodifiers := Repeated.cons (hspaced.mono fun _ => .dice) (.cons hadjust .nil)
    rw [htext]
    exact .intro (Spaced.self (.intro .missing (.sided hsix) hmodifiers))
  have h := reading_of_takes (takes_arithmeticRoll hsum)
  have h' := reading_of_takes (takes_basicRoll hpool)
  obtain ⟨hrequests, _, _, hvalue, _⟩ :=
    readings_agree h h' .standard (Source.script [6] 0)
  have hzero : run'.result.map Evaluation.value = .ok 0 := rfl
  exact ⟨h, h', hrequests, hvalue.trans hzero, hzero⟩

end Notation

end Dice
