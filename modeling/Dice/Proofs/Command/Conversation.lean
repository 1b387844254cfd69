import Dice.Command.Basic
import Dice.Proofs.Evaluation.Nesting
import Dice.Proofs.Evaluation.Seeded
import Dice.Proofs.Notation.Stopping

/-!
# Dice.Proofs.Command.Conversation

Texts answered line by line, until there are no more, on a source that answers every range within 64
bits, as a seeded one does.

* `Evaluation.Writable`, `Shows` : an evaluation whose numbers can be written, and its lines.
* `Rolled.Gives` : a result of rolling, and the source that is left.
* `Rolls` : a tree rolled again and again, with all lines shown.
* `Answered`, `Answers` : what a line, and what lines one after another are answered with.
* `Stops` : why a line that is a notation is not answered.
* `interactive_of_ranged` : lines are answered to the last one unless one of them stops it, and none
  does if all dice are small enough and all numbers short enough.
* `interactive_answers_or_stops` : so it is on a seeded source.
-/

namespace Dice

/-! ## Lines of an evaluation -/

/-- An event of a term shows the sign of the term. -/
def Event.Traced (e : Event) : Prop :=
  e.group = none ∨ ∃ sign, e.groupSign = some sign

namespace Evaluation

open Draws (Returns)

def Writable (e : Evaluation) : Prop :=
  Text.writable e.value = true ∧ ∀ event ∈ e.events, Text.writable event.value = true

theorem evaluateTerms_traced {limits : Limits} {terms : List (Symbol Sign × Node)} {number : Nat}
    {sum e : Evaluation} {answers : List Int}
    (h : Returns (Node.evaluateTerms limits number sum terms) answers e)
    (hsum : ∀ event ∈ sum.events, event.Traced) : ∀ event ∈ e.events, event.Traced := by
  induction terms generalizing number sum answers with
  | nil =>
    obtain ⟨_, rfl⟩ := Draws.returns_done_iff.mp h
    exact hsum
  | cons t terms ih =>
    obtain ⟨symbol, n⟩ := t
    cases symbol with
    | unknown found => exact absurd h Draws.not_returns_fail
    | known sign =>
      obtain ⟨_, term, _, _, _, hrest⟩ := Draws.returns_bind_iff.mp h
      refine ih hrest (List.forall_mem_append.mpr ⟨hsum, fun event hevent => ?_⟩)
      obtain ⟨_, _, rfl⟩ := List.mem_map.mp hevent
      exact .inr ⟨sign, rfl⟩

theorem evaluate_traced {σ : Type} [RandomSource σ] {limits : Limits} {n : Node} {s : σ}
    {e : Evaluation}
    (h : ((n.evaluate limits).run s).result = .ok e) : ∀ event ∈ e.events, event.Traced := by
  obtain ⟨hreturns, _⟩ := Draws.returns_answersTo h
  by_cases hn : ∃ terms, n = .sum terms
  · obtain ⟨terms, rfl⟩ := hn
    exact evaluateTerms_traced hreturns fun _ hevent => absurd hevent List.not_mem_nil
  · obtain ⟨_, hungrouped⟩ := returns_single (fun terms hterms => hn ⟨terms, hterms⟩) hreturns
    exact fun event hevent => .inl (hungrouped event hevent).1

end Evaluation

theorem exists_traceLine? (number : Nat) {e : Event} (h : e.Traced) :
    ∃ line, traceLine? number e = some line := by
  unfold traceLine?
  rcases h with h | ⟨sign, h⟩
  · simp only [h]
    exact ⟨_, rfl⟩
  · cases e.group <;> simp [h]

theorem exists_traceFrom? {events : List Event} (h : ∀ e ∈ events, e.Traced) (number : Nat) :
    ∃ lines, traceFrom? number events = some lines := by
  induction events generalizing number with
  | nil => exact ⟨[], rfl⟩
  | cons e events ih =>
    obtain ⟨he, hevents⟩ := List.forall_mem_cons.mp h
    obtain ⟨line, hline⟩ := exists_traceLine? number he
    obtain ⟨lines, hlines⟩ := ih hevents (number + 1)
    exact ⟨line :: lines, by rw [traceFrom?, hline, hlines]⟩

/-- The throw, and below it a line for each event if details are wanted. -/
def Shows (text : String) (detailed : Bool) (e : Evaluation) (lines : List String) : Prop :=
  ∃ line trace, (Throw.ofEvaluation text e none).text = .ok line ∧
    traceLines? e.events = some trace ∧ lines = line :: (if detailed then trace else [])

theorem evaluationLines_of_writable {e : Evaluation} (hw : e.Writable)
    (ht : ∀ event ∈ e.events, event.Traced) (text : String) (detailed : Bool) :
    ∃ lines, evaluationLines text detailed e = .ok lines ∧ Shows text detailed e lines := by
  obtain ⟨hvalue, hevents⟩ := hw
  obtain ⟨trace, htrace⟩ := exists_traceFrom? ht 0
  obtain ⟨line, hline⟩ : ∃ line, (Throw.ofEvaluation text e none).text = .ok line := by
    simp [Throw.text, Throw.ofEvaluation, Throw.require, hvalue]
  refine ⟨_, ?_, line, trace, hline, htrace, rfl⟩
  rw [evaluationLines, if_pos (List.all_eq_true.mpr hevents), hline, traceLines?, htrace]
  rfl

theorem evaluationLines_of_not_writable {e : Evaluation} (hw : ¬ e.Writable) (text : String)
    (detailed : Bool) : evaluationLines text detailed e = .error .unwritable := by
  unfold evaluationLines
  split
  · rename_i hevents
    have hvalue : Text.writable e.value = false := by
      rw [← Bool.not_eq_true]
      exact fun hvalue => hw ⟨hvalue, List.all_eq_true.mp hevents⟩
    simp [Throw.text, Throw.ofEvaluation, Throw.require, hvalue]
  · rfl

/-! ## Rolling one thing after another -/

namespace Rolled

variable {σ α β : Type}

/-- What came before is put in front. -/
def after (r : Rolled σ α) (requests : List Request) (records : List Log.Record) : Rolled σ α :=
  ⟨r.result, r.source, requests ++ r.requests, records ++ r.records⟩

/-- A result, and the source that is left. -/
structure Gives (r : Rolled σ α) (a : α) (s : σ) : Prop where
  result : r.result = .ok a
  source : r.source = s

theorem gives_pure (a : α) (s : σ) : (pure a s).Gives a s :=
  ⟨rfl, rfl⟩

variable {r : Rolled σ α} {f : α → σ → Rolled σ β} {a : α} {b : β} {s s' : σ} {e : Failure}

theorem andThen_ok (h : r.result = .ok a) (f : α → σ → Rolled σ β) :
    r.andThen f = (f a r.source).after r.requests r.records := by
  simp only [Rolled.andThen, h, after]

theorem andThen_error (h : r.result = .error e) : (r.andThen f).result = .error e := by
  simp only [Rolled.andThen, h]

/-- Something made of a result at once changes nothing else. -/
theorem andThen_pure (h : r.result = .ok a) (g : α → β) :
    (r.andThen fun a s => .pure (g a) s) = ⟨.ok (g a), r.source, r.requests, r.records⟩ := by
  simp [andThen_ok h, pure, after]

theorem exists_of_andThen_ok (h : (r.andThen f).result = .ok b) :
    ∃ a, r.result = .ok a ∧ (f a r.source).result = .ok b := by
  unfold Rolled.andThen at h
  split at h
  · cases h
  · rename_i a ha
    exact ⟨a, ha, h⟩

theorem andThen_eq_error (h : (r.andThen f).result = .error e) :
    r.result = .error e ∨ ∃ a, r.result = .ok a ∧ (f a r.source).result = .error e := by
  cases hr : r.result with
  | error e' =>
    have he : (r.andThen f).result = .error e' := andThen_error hr
    cases he.symm.trans h
    exact .inl rfl
  | ok a => rw [andThen_ok hr] at h; exact .inr ⟨a, rfl, h⟩

theorem Gives.andThen (h : r.Gives a s) (hf : (f a s).Gives b s') : (r.andThen f).Gives b s' := by
  obtain ⟨hresult, rfl⟩ := h
  rw [andThen_ok hresult]
  exact ⟨hf.result, hf.source⟩

theorem Gives.andThen_error (h : r.Gives a s) (hf : (f a s).result = .error e) :
    (r.andThen f).result = .error e := by
  obtain ⟨hresult, rfl⟩ := h
  rw [andThen_ok hresult]
  exact hf

end Rolled

/-! ## A tree rolled again and again -/

section

variable {σ : Type} [RandomSource σ]

/-- Each time on what the source has left. -/
inductive Rolls (limits : Limits) (text : String) (detailed : Bool) (n : Node) :
    Nat → σ → List String → σ → Prop where
  | none {s : σ} : Rolls limits text detailed n 0 s [] s
  | more {times : Nat} {s s' : σ} {e : Evaluation} {lines rest : List String} :
      ((n.evaluate limits).run s).result = .ok e → Shows text detailed e lines →
      Rolls limits text detailed n times ((n.evaluate limits).run s).source rest s' →
      Rolls limits text detailed n (times + 1) s (lines ++ rest) s'

/-- Some roll has a number that cannot be written, and those before it are shown. -/
def Unwritten (limits : Limits) (text : String) (detailed : Bool) (n : Node) (times : Nat)
    (s : σ) : Prop :=
  ∃ before lines s' e, before < times ∧ Rolls limits text detailed n before s lines s' ∧
    ((n.evaluate limits).run s').result = .ok e ∧ ¬ e.Writable

variable {keeps : σ → Prop} {limits : Limits} {text : String} {detailed : Bool} {n : Node}
  {times : Nat} {s s' : σ}

theorem Rolls.kept (hranged : Ranged keeps) {lines : List String}
    (h : Rolls limits text detailed n times s lines s') (hs : keeps s) : keeps s' := by
  induction h with
  | none => exact hs
  | more _ _ _ ih => exact ih (hranged.run _ hs)

theorem Unwritten.more {e : Evaluation} {lines : List String}
    (he : ((n.evaluate limits).run s).result = .ok e) (hlines : Shows text detailed e lines)
    (h : Unwritten limits text detailed n times ((n.evaluate limits).run s).source) :
    Unwritten limits text detailed n (times + 1) s := by
  obtain ⟨before, rest, s', e', hlt, hrolls, he', hw⟩ := h
  exact ⟨before + 1, lines ++ rest, s', e', by omega, .more he hlines hrolls, he', hw⟩

theorem rollNode_gives {e : Evaluation} (h : ((n.evaluate limits).run s).result = .ok e) :
    (rollNode limits n s).Gives e ((n.evaluate limits).run s).source := by
  refine ⟨?_, rfl⟩
  simp only [rollNode, h, Except.mapError]

/-- Where every evaluation succeeds, only a number that is too long ends the rolling. -/
theorem repeatLines_rolls (hranged : Ranged keeps)
    (h : ∀ s, keeps s → ∃ e, ((n.evaluate limits).run s).result = .ok e) (times : Nat)
    (hs : keeps s) :
    (∃ lines s', (repeatLines limits text detailed n times s).Gives lines s' ∧
      Rolls limits text detailed n times s lines s') ∨
      (repeatLines limits text detailed n times s).result = .error .unwritable ∧
        Unwritten limits text detailed n times s := by
  induction times generalizing s with
  | zero => exact .inl ⟨[], s, Rolled.gives_pure [] s, .none⟩
  | succ times ih =>
    obtain ⟨e, he⟩ := h s hs
    have hroll := rollNode_gives he
    rw [repeatLines]
    by_cases hw : e.Writable
    · obtain ⟨lines, hlines, hshows⟩ :=
        evaluationLines_of_writable hw (Evaluation.evaluate_traced he) text detailed
      have hshown : (⟨evaluationLines text detailed e, ((n.evaluate limits).run s).source, [], []⟩ :
          Rolled σ (List String)).Gives lines ((n.evaluate limits).run s).source :=
        ⟨hlines, rfl⟩
      rcases ih (hranged.run (n.evaluate limits) hs) with
        ⟨rest, s', hrest, hrolls⟩ | ⟨hrest, hunwritten⟩
      · refine .inl ⟨lines ++ rest, s', ?_, .more he hshows hrolls⟩
        exact hroll.andThen (hshown.andThen (hrest.andThen (Rolled.gives_pure _ _)))
      · refine .inr ⟨?_, hunwritten.more he hshows⟩
        exact hroll.andThen_error (hshown.andThen_error (Rolled.andThen_error hrest))
    · refine .inr ⟨?_, 0, [], s, e, by omega, .none, he, hw⟩
      exact hroll.andThen_error
        (Rolled.andThen_error (evaluationLines_of_not_writable hw text detailed))

theorem repeatLines_error {e : RunError}
    (h : ((n.evaluate limits).run s).result = .error e) (hpos : 1 ≤ times) :
    (repeatLines limits text detailed n times s).result = .error (.run e) := by
  obtain ⟨more, rfl⟩ : ∃ more, times = more + 1 := ⟨times - 1, by omega⟩
  have hroll : (rollNode limits n s).result = .error (.run e) := by
    simp only [rollNode, h, Except.mapError]
  rw [repeatLines]
  exact Rolled.andThen_error hroll

end

namespace Command

open Notation (WellFormed read_of_text wellFormed_of_read run_of_oversized run_of_not_oversized)

/-! ## Lines -/

/-- A text that is read as a roll, or refused as no notation. -/
def Legible (line : String) : Prop :=
  (∃ n, Grammar.read line = .ok n) ∨
    ∃ refused position expected, Grammar.read line = .error (.invalid refused position expected)

/-- All lines are, but those with a long run of digits. -/
theorem legible_of_shortRuns {line : String} (h : Parser.ShortRuns line.toList) : Legible line := by
  by_cases hread : ∃ n, Grammar.read line = .ok n
  · exact .inl hread
  · obtain ⟨_, _, _, hrefused⟩ := Notation.failure_of_refused h fun n hn => hread ⟨n, hn⟩
    exact .inr ⟨_, _, _, hrefused⟩

variable {σ : Type} [RandomSource σ]

/-- Blank lines are passed over, notations are rolled, and of other texts is told what is wrong. -/
inductive Answered (limits : Limits) (o : Options) (times : Nat) (line : String) (s : σ) :
    String → σ → Prop where
  | blank : Text.isBlankText line.toList = true → Answered limits o times line s "" s
  | refused {refused : String} {position : Nat} {expected : Option String} :
      Text.isBlankText line.toList = false →
      Grammar.read line = .error (.invalid refused position expected) →
      Answered limits o times line s
        (Grammar.Error.message (.invalid refused position expected) ++ "\n") s
  | rolled {n : Node} {lines : List String} {s' : σ} :
      Text.isBlankText line.toList = false → Grammar.read line = .ok n →
      Rolls limits line o.detailed n times s lines s' →
      Answered limits o times line s ("\n".intercalate lines ++ "\n") s'

/-- Each line behind a prompt of its own. -/
inductive Answers (limits : Limits) (o : Options) (times : Nat) :
    List String → σ → String → σ → Prop where
  | none {s : σ} : Answers limits o times [] s "" s
  | more {line : String} {lines : List String} {s s' s'' : σ} {text output : String} :
      Answered limits o times line s text s' → Answers limits o times lines s' output s'' →
      Answers limits o times (line :: lines) s (prompt ++ text ++ output) s''

/-- A die has too many faces to be drawn, or all dice can be drawn but some roll of the line has a
number that is too long to be written. -/
inductive Stops (limits : Limits) (o : Options) (times : Nat) (line : String) (s : σ) :
    Failure → Prop where
  | oversized {n : Node} : Grammar.read line = .ok n → n.Oversized →
      Stops limits o times line s (.run (.source .highOutOfRange))
  | unwritten {n : Node} : Grammar.read line = .ok n → ¬ n.Oversized →
      Unwritten limits line o.detailed n times s → Stops limits o times line s .unwritable

variable {keeps : σ → Prop} {limits : Limits} {o : Options} {times : Nat} {line : String} {s s' : σ}

theorem Answered.kept (hranged : Ranged keeps) {text : String}
    (h : Answered limits o times line s text s') (hs : keeps s) : keeps s' := by
  cases h with
  | blank => exact hs
  | refused => exact hs
  | rolled _ _ hrolls => exact hrolls.kept hranged hs

theorem Answers.kept (hranged : Ranged keeps) {lines : List String} {output : String}
    (h : Answers limits o times lines s output s') (hs : keeps s) : keeps s' := by
  induction h with
  | none => exact hs
  | more hanswered _ ih => exact ih (hanswered.kept hranged hs)

omit [RandomSource σ] in
theorem readLogged_gives {n : Node} (h : Grammar.read line = .ok n) (s : σ) :
    (readLogged line s).Gives n s := by
  refine ⟨?_, rfl⟩
  simp only [readLogged, h, Except.mapError]

section

variable {n : Node} (htimes : o.times = .value times) (hread : Grammar.read line = .ok n)

include htimes hread

theorem reply_gives {lines : List String}
    (h : (repeatLines limits line o.detailed n times s).Gives lines s') :
    (reply limits o line s).Gives ⟨true, "\n".intercalate lines ++ "\n"⟩ s' := by
  have hlines : (rollLines limits line (o.times.value?.map Int.ofNat) o.detailed s).Gives
      lines s' := by
    rw [htimes]
    exact (readLogged_gives hread s).andThen h
  unfold reply
  -- only the lines count, and the parser is too large to be looked into
  generalize rollLines limits line (o.times.value?.map Int.ofNat) o.detailed s = rolled at hlines ⊢
  obtain ⟨hresult, hsource⟩ := hlines
  constructor
  · simp only [hresult]
  · simp only [hresult, hsource]

theorem reply_error {e : Failure} (he : ∀ e', e ≠ .grammar e')
    (h : (repeatLines limits line o.detailed n times s).result = .error e) :
    (reply limits o line s).result = .error e := by
  have hlines : (rollLines limits line (o.times.value?.map Int.ofNat) o.detailed s).result =
      .error e := by
    rw [htimes]
    exact (readLogged_gives hread s).andThen_error h
  unfold reply
  generalize rollLines limits line (o.times.value?.map Int.ofNat) o.detailed s = rolled at hlines ⊢
  cases e with
  | grammar e' => exact absurd rfl (he e')
  | run | unwritable | noTimes => simp only [hlines]

end

theorem reply_refused {refused : String} {position : Nat} {expected : Option String}
    (hread : Grammar.read line = .error (.invalid refused position expected)) (s : σ) :
    (reply limits o line s).Gives
      ⟨false, Grammar.Error.message (.invalid refused position expected) ++ "\n"⟩ s := by
  have hlines : (rollLines limits line (o.times.value?.map Int.ofNat) o.detailed s).result =
      .error (.grammar (.invalid refused position expected)) ∧
      (rollLines limits line (o.times.value?.map Int.ofNat) o.detailed s).source = s := by
    rw [rollLines, readLogged, hread]
    exact ⟨rfl, rfl⟩
  unfold reply
  generalize rollLines limits line (o.times.value?.map Int.ofNat) o.detailed s = rolled at hlines ⊢
  obtain ⟨hresult, hsource⟩ := hlines
  constructor
  · simp only [hresult]
  · simp only [hresult, hsource]

theorem answerLine_gives {r : Reply} (hblank : Text.isBlankText line.toList = false)
    (h : (reply limits o line s).Gives r s') : (answerLine limits o line s).Gives r.text s' := by
  rw [answerLine, if_neg (by simp [hblank])]
  exact h.andThen (Rolled.gives_pure r.text s')

theorem answerLine_error {e : Failure} (h : (reply limits o line s).result = .error e)
    (hblank : Text.isBlankText line.toList = false) :
    (answerLine limits o line s).result = .error e := by
  rw [answerLine, if_neg (by simp [hblank])]
  exact Rolled.andThen_error h

theorem answerLine_answered_or_stops (hranged : Ranged keeps) (limits : Limits)
    (htimes : o.times = .value times) (hpos : 1 ≤ times) (hline : Legible line) (hs : keeps s) :
    (∃ text s', (answerLine limits o line s).Gives text s' ∧
      Answered limits o times line s text s') ∨
      ∃ e, (answerLine limits o line s).result = .error e ∧ Stops limits o times line s e := by
  cases hblank : Text.isBlankText line.toList with
  | true =>
    refine .inl ⟨"", s, ?_, .blank hblank⟩
    rw [answerLine, if_pos hblank]
    exact Rolled.gives_pure "" s
  | false =>
    rcases hline with ⟨n, hread⟩ | ⟨refused, position, expected, hread⟩
    · have hwell := wellFormed_of_read hread
      by_cases hn : n.Oversized
      · have hrun := run_of_oversized hranged limits hwell hn hs
        refine .inr ⟨_, answerLine_error ?_ hblank, .oversized hread hn⟩
        exact reply_error htimes hread (fun _ => nofun) (repeatLines_error hrun hpos)
      · have hok (s : σ) (hs : keeps s) := run_of_not_oversized hranged limits hwell hn hs
        rcases repeatLines_rolls hranged hok times hs with
          ⟨lines, s', hgives, hrolls⟩ | ⟨hstop, hunwritten⟩
        · have hreply := reply_gives htimes hread hgives
          exact .inl ⟨_, s', answerLine_gives hblank hreply, .rolled hblank hread hrolls⟩
        · refine .inr ⟨_, answerLine_error ?_ hblank, .unwritten hread hn hunwritten⟩
          exact reply_error htimes hread (fun _ => nofun) hstop
    · exact .inl ⟨_, s, answerLine_gives hblank (reply_refused hread s), .refused hblank hread⟩

/-! ## All lines -/

theorem interactive_cons {text : String} (h : (answerLine limits o line s).Gives text s')
    (lines : List String) :
    interactive limits o (line :: lines) s =
      (interactive limits o lines s').after (prompt ++ text)
        (answerLine limits o line s).records := by
  obtain ⟨hresult, hsource⟩ := h
  simp only [interactive, hresult, hsource]

theorem interactive_cons_error {e : Failure} (h : (answerLine limits o line s).result = .error e)
    (lines : List String) :
    interactive limits o (line :: lines) s =
      ⟨.error e, prompt, (answerLine limits o line s).records⟩ := by
  simp only [interactive, h]

theorem interactive_cases (hranged : Ranged keeps) (limits : Limits)
    (htimes : o.times = .value times) (hpos : 1 ≤ times) {lines : List String}
    (hlines : ∀ line ∈ lines, Legible line) (hs : keeps s) :
    (∃ output s', Answers limits o times lines s output s' ∧
      (interactive limits o lines s).result = .ok 0 ∧
      (interactive limits o lines s).output = output ++ (prompt ++ "\n")) ∨
      ∃ before line after output s' e, lines = before ++ line :: after ∧
        Answers limits o times before s output s' ∧ Stops limits o times line s' e ∧
        (interactive limits o lines s).result = .error e ∧
        (interactive limits o lines s).output = output ++ prompt := by
  induction lines generalizing s with
  | nil => exact .inl ⟨"", s, .none, rfl, rfl⟩
  | cons line lines ih =>
    obtain ⟨hline, hrest⟩ := List.forall_mem_cons.mp hlines
    rcases answerLine_answered_or_stops hranged limits htimes hpos hline hs with
      ⟨text, s', hgives, hanswered⟩ | ⟨e, herror, hstops⟩
    · rw [interactive_cons hgives]
      rcases ih hrest (hanswered.kept hranged hs) with
        ⟨output, s'', hanswers, hok, houtput⟩ |
        ⟨before, stop, after, output, s'', e, rfl, hanswers, hstops, herror, houtput⟩
      · refine .inl ⟨_, s'', .more hanswered hanswers, hok, ?_⟩
        simp only [Ran.after, houtput, String.append_assoc]
      · refine .inr ⟨line :: before, stop, after, _, s'', e, rfl, .more hanswered hanswers, hstops,
          herror, ?_⟩
        simp only [Ran.after, houtput, String.append_assoc]
    · rw [interactive_cons_error herror]
      exact .inr ⟨[], line, lines, "", s, e, rfl, .none, hstops, rfl, rfl⟩

/-- The lines are answered one after another, and it ends well when there are no more, unless a
notation among them has a die with too many faces, or comes to a number with too many digits. Nothing
is answered from the first such line on. -/
theorem interactive_of_ranged (hranged : Ranged keeps) (limits : Limits)
    (htimes : o.times = .value times) (hpos : 1 ≤ times) (hs : keeps s) {lines : List String}
    (hlines : ∀ line ∈ lines, Legible line) :
    let ran := interactive limits o lines s
    ((∃ output s', Answers limits o times lines s output s' ∧
        ran.result = .ok 0 ∧ ran.output = output ++ (prompt ++ "\n")) ∨
      ∃ before line after output s' e, lines = before ++ line :: after ∧
        Answers limits o times before s output s' ∧ Stops limits o times line s' e ∧
        ran.result = .error e ∧ ran.output = output ++ prompt) ∧
      ((∀ line ∈ lines, ∀ n, Grammar.read line = .ok n → ¬ n.Oversized ∧
        ∀ s, keeps s → ∀ e, ((n.evaluate limits).run s).result = .ok e → e.Writable) →
        ran.result = .ok 0) := by
  intro ran
  have hcases := interactive_cases hranged limits htimes hpos hlines hs
  refine ⟨hcases, fun hfit => ?_⟩
  rcases hcases with ⟨_, _, _, hok, _⟩ |
    ⟨before, line, after, output, s', e, rfl, hanswers, hstops, _, _⟩
  · exact hok
  · have hfit := hfit line (by simp)
    cases hstops with
    | oversized hread hn => exact absurd hn (hfit _ hread).1
    | unwritten hread _ hunwritten =>
      obtain ⟨_, _, s'', e, _, hrolls, he, hw⟩ := hunwritten
      have hkept := hrolls.kept hranged (hanswers.kept hranged hs)
      exact absurd ((hfit _ hread).2 s'' hkept e he) hw

/-- On a seeded source the lines are answered one after another, and it ends well when there are no
more, unless a notation among them has a die with too many faces, or comes to a number with too many
digits. Nothing is answered from the first such line on. -/
theorem interactive_answers_or_stops (limits : Limits) (htimes : o.times = .value times)
    (hpos : 1 ≤ times) (seed : Int) {lines : List String}
    (hlines : ∀ line ∈ lines, Legible line) :
    let ran := interactive limits o lines (Source.ofSeed seed)
    ((∃ output s, Answers limits o times lines (Source.ofSeed seed) output s ∧
        ran.result = .ok 0 ∧ ran.output = output ++ (prompt ++ "\n")) ∨
      ∃ before line after output s e, lines = before ++ line :: after ∧
        Answers limits o times before (Source.ofSeed seed) output s ∧
        Stops limits o times line s e ∧ ran.result = .error e ∧ ran.output = output ++ prompt) ∧
      ((∀ line ∈ lines, ∀ n, Grammar.read line = .ok n → ¬ n.Oversized ∧
        ∀ s : Source, s.IsTwister → ∀ e, ((n.evaluate limits).run s).result = .ok e → e.Writable) →
        ran.result = .ok 0) :=
  interactive_of_ranged Source.ranged_isTwister limits htimes hpos (Source.isTwister_ofSeed seed)
    hlines

/-- A text that is no notation, a die, a blank line and a constant; both notations are rolled twice,
with details. -/
theorem interactive_answers_or_stops_mixed :
    let o : Options := { Options.standard with detailed := true, times := .value 2 }
    let lines := ["x", "1d6", "", "7"]
    let ran := interactive .standard o lines (Source.ofSeed 1)
    (∀ line ∈ lines, Legible line) ∧ ran.result = .ok 0 ∧
      ∃ output s, Answers .standard o 2 lines (Source.ofSeed 1) output s ∧
        ran.output = output ++ (prompt ++ "\n") := by
  intro o lines ran
  have hlegible : ∀ line ∈ lines, Legible line := by
    intro line hline
    refine legible_of_shortRuns (Parser.shortRuns_of_length_le ?_)
    have hshort : ∀ line ∈ lines, line.toList.length ≤ Text.digitLimit := by decide
    exact hshort line hline
  let die : Node := .pool 1 (.die (.fresh (.sided 6))) (([] : List Modifier).map .modifier)
  have hwell : WellFormed die :=
    .term (.pool ⟨by decide, by decide⟩ (.sided ⟨by decide, by decide⟩) (by simp))
  have hdie : Grammar.read "1d6" = .ok die := read_of_text hwell rfl
  have hconstant : Grammar.read "7" = .ok (.constant 7) :=
    read_of_text (.term (.constant ⟨by decide, by decide⟩)) rfl
  have hwritable (n : Int) (h : n.natAbs ≤ 7) : Text.writable n = true :=
    decide_eq_true (Nat.lt_of_le_of_lt h (by decide +kernel))
  -- the die shows at most six, whatever the words of the twister are
  have hrolled (s : Source) (hs : s.IsTwister) (e : Evaluation)
      (he : ((die.evaluate .standard).run s).result = .ok e) : e.Writable := by
    obtain ⟨seed, state, rfl⟩ := hs
    have hle := Twister.upTo_le 5 state
    have hvalue := hwritable (1 + (Twister.upTo 5 state).1) (by omega)
    obtain rfl := Except.ok.inj he
    exact ⟨hvalue, List.forall_mem_singleton.mpr hvalue⟩
  have hnothing {line : String} (hnone : (Grammar.read line).toOption = none) {n : Node}
      (hn : Grammar.read line = .ok n) : False := by
    rw [hn] at hnone
    cases hnone
  obtain ⟨hcases, hfit⟩ := interactive_answers_or_stops (o := o) .standard rfl (by decide) 1 hlegible
  have hok : ran.result = .ok 0 := by
    refine hfit (List.forall_mem_cons.mpr ⟨fun n hn => ?_, List.forall_mem_cons.mpr ⟨fun n hn => ?_,
      List.forall_mem_cons.mpr ⟨fun n hn => ?_, List.forall_mem_singleton.mpr fun n hn => ?_⟩⟩⟩)
    · exact (hnothing (by decide +kernel) hn).elim
    · cases hdie.symm.trans hn
      refine ⟨?_, hrolled⟩
      rintro ⟨sides, hd, hsides⟩
      cases List.mem_singleton.mp hd
      exact absurd hsides (by decide)
    · exact (hnothing (by decide +kernel) hn).elim
    · cases hconstant.symm.trans hn
      refine ⟨fun ⟨_, hd, _⟩ => List.not_mem_nil hd, fun s _ e he => ?_⟩
      obtain rfl : Evaluation.mk 7 [.summary .constant 7] = e := Except.ok.inj he
      have hseven := hwritable 7 (Nat.le_refl 7)
      exact ⟨hseven, List.forall_mem_singleton.mpr hseven⟩
  refine ⟨hlegible, hok, ?_⟩
  rcases hcases with ⟨output, s, hanswers, _, houtput⟩ | ⟨_, _, _, _, _, e, _, _, _, herror, _⟩
  · exact ⟨output, s, hanswers, houtput⟩
  · exact nomatch hok.symm.trans herror

/-- A die of so many faces is a notation, but it ends the program, and the line behind it is never
answered. -/
theorem interactive_stops_at_oversized :
    let text := "1d9223372036854775808"
    let ran := interactive .standard .standard [text, "7"] (Source.ofSeed 1)
    Grammar.read text = .ok (.pool 1 (.die (.fresh (.sided 9223372036854775808))) []) ∧
      ran.result = .error (.run (.source .highOutOfRange)) ∧ ran.output = prompt := by
  intro text ran
  let n : Node := .pool 1 (.die (.fresh (.sided 9223372036854775808)))
    (([] : List Modifier).map .modifier)
  have hwell : WellFormed n :=
    .term (.pool ⟨by decide, by decide⟩ (.sided ⟨by decide, by decide⟩) (by simp))
  have hread : Grammar.read text = .ok n := read_of_text hwell rfl
  have hrun : ((n.evaluate .standard).run (Source.ofSeed 1)).result =
      .error (.source .highOutOfRange) := rfl
  have hstop : (repeatLines .standard text Options.standard.detailed n 1 (Source.ofSeed 1)).result =
      .error (.run (.source .highOutOfRange)) :=
    repeatLines_error hrun (Nat.le_refl 1)
  have hreply : (reply .standard .standard text (Source.ofSeed 1)).result =
      .error (.run (.source .highOutOfRange)) :=
    reply_error rfl hread (fun _ h => Failure.noConfusion h) hstop
  have hran := interactive_cons_error (answerLine_error hreply (by decide)) ["7"]
  exact ⟨hread, congrArg Ran.result hran, congrArg Ran.output hran⟩

end Command

end Dice
