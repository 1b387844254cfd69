import Dice.Proofs.Command.Conversation

/-!
# Dice.Proofs.Command.Blocks

What is printed line by line on any source, and what is asked of the source for it.

* `Draws.repeated` : one thing drawn again and again.
* `repeatLines_ok` : the lines of a tree that is rolled so many times are those of the evaluations.
* `Block`, `Prints`, `Blocks` : what is printed and asked for a line, and for lines one after another.
* `converse`, `interactive_eq` : the answers to all lines, apart from the prompts between them.
* `prints_of_answerLine` : the block of a line that is answered.
* `interactive_blocks` : the blocks of the lines, which stay the same without those that are no
  notation.
-/

namespace Dice

namespace Draws

variable {σ α : Type} [RandomSource σ]

/-- All results, in order. -/
def repeated (p : Draws α) : Nat → Draws (List α)
  | 0 => .done []
  | times + 1 => p.bind fun a => (p.repeated times).bind fun rest => .done (a :: rest)

theorem run_repeated_succ (p : Draws α) (times : Nat) (s : σ) :
    (p.repeated (times + 1)).run s =
      (p.run s).andThen fun a s => ((p.repeated times).run s).map (a :: ·) := by
  simp only [repeated, run_bind p, run_map]

end Draws

variable {σ : Type} [RandomSource σ]

/-! ## The lines of evaluations -/

theorem shows_of_evaluationLines {text : String} {detailed : Bool} {e : Evaluation}
    {lines : List String} (ht : ∀ event ∈ e.events, event.Traced)
    (h : evaluationLines text detailed e = .ok lines) : Shows text detailed e lines := by
  by_cases hw : e.Writable
  · obtain ⟨lines', hlines, hshows⟩ := evaluationLines_of_writable hw ht text detailed
    cases h.symm.trans hlines
    exact hshows
  · rw [evaluationLines_of_not_writable hw] at h
    cases h

section

variable {limits : Limits} {text : String} {detailed : Bool} {n : Node} {s : σ}

theorem run_of_rollNode {e : Evaluation} (h : (rollNode limits n s).result = .ok e) :
    ((n.evaluate limits).run s).result = .ok e := by
  have h : ((n.evaluate limits).run s).result.mapError Failure.run = .ok e := h
  cases hr : ((n.evaluate limits).run s).result with
  | error err => rw [hr] at h; cases h
  | ok e' => rw [hr] at h; cases h; rfl

/-- Lines are shown if every evaluation succeeds, each on what the one before it leaves. -/
theorem repeatLines_ok {times : Nat} {lines : List String}
    (h : (repeatLines limits text detailed n times s).result = .ok lines) :
    let run := ((n.evaluate limits).repeated times).run s
    ∃ evaluations shown, run.result = .ok evaluations ∧
      List.Forall₂ (Shows text detailed) evaluations shown ∧ lines = shown.flatten ∧
      (repeatLines limits text detailed n times s).source = run.source ∧
      (repeatLines limits text detailed n times s).requests = run.requests := by
  induction times generalizing s lines with
  | zero =>
    cases h
    exact ⟨[], [], rfl, .nil, rfl, rfl, rfl⟩
  | succ times ih =>
    rw [repeatLines] at h ⊢
    obtain ⟨e, he, h⟩ := Rolled.exists_of_andThen_ok h
    obtain ⟨first, hfirst, h⟩ := Rolled.exists_of_andThen_ok h
    obtain ⟨rest, hrest, h⟩ := Rolled.exists_of_andThen_ok h
    cases h
    obtain ⟨evaluations, shown, hrun, hshown, rfl, hsource, hrequests⟩ := ih hrest
    have hevaluated := run_of_rollNode he
    have hlines : evaluationLines text detailed e = .ok first := hfirst
    have hshows := shows_of_evaluationLines (Evaluation.evaluate_traced hevaluated) hlines
    refine ⟨e :: evaluations, first :: shown, ?_, .cons hshows hshown, rfl, ?_⟩
    · rw [Draws.run_repeated_succ, Run.andThen_ok hevaluated]
      exact congrArg (Except.map (e :: ·)) hrun
    · rw [Draws.run_repeated_succ, Run.andThen_ok hevaluated, Rolled.andThen_ok he,
        Rolled.andThen_ok hfirst, Rolled.andThen_pure hrest]
      exact ⟨hsource, congrArg (_ ++ ·) hrequests⟩

end

namespace Command

/-! ## What is printed for a line -/

/-- A line with what is printed and what is asked of the source for it. -/
structure Block where
  line : String
  text : String
  requests : List Request

/-- Nothing is asked of the source for a line that is no notation. For a notation all evaluations
are made before anything is printed. -/
inductive Prints (limits : Limits) (o : Options) (line : String) (s : σ) : Block → σ → Prop where
  | blank : Text.isBlankText line.toList = true → Prints limits o line s ⟨line, "", []⟩ s
  | refused {refused : String} {position : Nat} {expected : Option String} :
      Text.isBlankText line.toList = false →
      Grammar.read line = .error (.invalid refused position expected) →
      Prints limits o line s
        ⟨line, Grammar.Error.message (.invalid refused position expected) ++ "\n", []⟩ s
  | rolled {n : Node} {times : Nat} {evaluations : List Evaluation} {shown : List (List String)} :
      Text.isBlankText line.toList = false → Grammar.read line = .ok n → o.times = .value times →
      (((n.evaluate limits).repeated times).run s).result = .ok evaluations →
      List.Forall₂ (Shows line o.detailed) evaluations shown →
      Prints limits o line s
        ⟨line, "\n".intercalate shown.flatten ++ "\n",
          (((n.evaluate limits).repeated times).run s).requests⟩
        (((n.evaluate limits).repeated times).run s).source

/-- The source goes on from line to line. -/
inductive Blocks (limits : Limits) (o : Options) : List String → σ → List Block → σ → Prop where
  | none {s : σ} : Blocks limits o [] s [] s
  | more {line : String} {lines : List String} {s s' s'' : σ} {b : Block} {blocks : List Block} :
      Prints limits o line s b s' → Blocks limits o lines s' blocks s'' →
      Blocks limits o (line :: lines) s (b :: blocks) s''

/-- A line that is rolled. -/
def isRoll (line : String) : Bool :=
  !Text.isBlankText line.toList && (Grammar.read line).isOk

variable {limits : Limits} {o : Options} {line : String} {lines : List String} {s s' : σ}
  {b : Block} {blocks : List Block}

theorem Prints.line_eq (h : Prints limits o line s b s') : b.line = line := by
  cases h <;> rfl

/-- A line that is no notation leaves the source alone. -/
theorem Prints.undisturbed (h : Prints limits o line s b s') (hline : isRoll line = false) :
    b.requests = [] ∧ s' = s := by
  cases h with
  | blank => exact ⟨rfl, rfl⟩
  | refused => exact ⟨rfl, rfl⟩
  | rolled hblank hread => simp [isRoll, hblank, hread, Except.isOk, Except.toBool] at hline

theorem Blocks.filter (h : Blocks limits o lines s blocks s') :
    Blocks limits o (lines.filter isRoll) s (blocks.filter (isRoll ·.line)) s' := by
  induction h with
  | none => exact .none
  | more hprints _ ih =>
    rw [List.filter_cons, List.filter_cons, hprints.line_eq]
    split
    · exact .more hprints ih
    · rename_i hline
      obtain ⟨_, rfl⟩ := hprints.undisturbed (eq_false_of_ne_true hline)
      exact ih

/-! ## Lines that are answered -/

/-- What fails in the rolling of a tree has nothing to do with the text. -/
theorem repeatLines_ne_grammar {detailed : Bool} {n : Node} {times : Nat} {e : Grammar.Error} :
    (repeatLines limits line detailed n times s).result ≠ .error (.grammar e) := by
  induction times generalizing s with
  | zero => nofun
  | succ times ih =>
    intro h
    rw [repeatLines] at h
    rcases Rolled.andThen_eq_error h with h | ⟨evaluation, he, h⟩
    · have h : ((n.evaluate limits).run s).result.mapError Failure.run = .error (.grammar e) := h
      cases hr : ((n.evaluate limits).run s).result <;> rw [hr] at h <;> cases h
    rcases Rolled.andThen_eq_error h with h | ⟨_, _, h⟩
    · have h : evaluationLines line detailed evaluation = .error (.grammar e) := h
      by_cases hw : evaluation.Writable
      · have ht := Evaluation.evaluate_traced (run_of_rollNode he)
        obtain ⟨lines, hlines, _⟩ := evaluationLines_of_writable hw ht line detailed
        cases hlines.symm.trans h
      · cases (evaluationLines_of_not_writable hw line detailed).symm.trans h
    rcases Rolled.andThen_eq_error h with h | ⟨_, _, h⟩
    · exact ih h
    · cases h

section

variable {r : Reply} (hok : (reply limits o line s).result = .ok r)

include hok

theorem reply_of_unread {e : Grammar.Error} (hread : Grammar.read line = .error e) :
    (∃ refused position expected, e = .invalid refused position expected) ∧
      r.text = e.message ++ "\n" ∧ (reply limits o line s).requests = [] ∧
      (reply limits o line s).source = s := by
  have hlines : rollLines limits line (o.times.value?.map Int.ofNat) o.detailed s =
      ⟨.error (.grammar e), s, [], readRecords line (.error e)⟩ := by
    rw [rollLines, readLogged, hread]
    rfl
  unfold reply at hok ⊢
  generalize rollLines limits line (o.times.value?.map Int.ofNat) o.detailed s = rolled
    at hlines hok ⊢
  subst hlines
  cases e with
  | invalid refused position expected => cases hok; exact ⟨⟨_, _, _, rfl⟩, rfl, rfl, rfl⟩
  | overlong => cases hok

theorem reply_of_read {n : Node} (hread : Grammar.read line = .ok n) :
    ∃ times lines, o.times = .value times ∧
      (repeatLines limits line o.detailed n times s).result = .ok lines ∧
      r.text = "\n".intercalate lines ++ "\n" ∧
      (reply limits o line s).requests =
        (repeatLines limits line o.detailed n times s).requests ∧
      (reply limits o line s).source = (repeatLines limits line o.detailed n times s).source := by
  have hlogged := (readLogged_gives hread s).result
  cases htimes : o.times with
  | nothing =>
    obtain ⟨records, hlines⟩ : ∃ records,
        rollLines limits line (o.times.value?.map Int.ofNat) o.detailed s =
          Rolled.after ⟨.error .noTimes, s, [], []⟩ [] records := by
      rw [htimes]
      exact ⟨_, Rolled.andThen_ok hlogged _⟩
    unfold reply at hok
    generalize rollLines limits line (o.times.value?.map Int.ofNat) o.detailed s = rolled
      at hlines hok
    subst hlines
    cases hok
  | value times =>
    obtain ⟨records, hlines⟩ : ∃ records,
        rollLines limits line (o.times.value?.map Int.ofNat) o.detailed s =
          (repeatLines limits line o.detailed n times s).after [] records := by
      rw [htimes]
      exact ⟨_, Rolled.andThen_ok hlogged _⟩
    unfold reply at hok ⊢
    generalize rollLines limits line (o.times.value?.map Int.ofNat) o.detailed s = rolled
      at hlines hok ⊢
    subst hlines
    simp only [Rolled.after, List.nil_append] at hok ⊢
    cases hresult : (repeatLines limits line o.detailed n times s).result with
    | ok lines =>
      rw [hresult] at hok
      cases hok
      exact ⟨times, lines, rfl, hresult, rfl, rfl, rfl⟩
    | error e =>
      rw [hresult] at hok
      cases e with
      | grammar e => exact absurd hresult repeatLines_ne_grammar
      | run | unwritable | noTimes => cases hok

theorem prints_of_reply (hblank : Text.isBlankText line.toList = false) :
    Prints limits o line s ⟨line, r.text, (reply limits o line s).requests⟩
      (reply limits o line s).source := by
  cases hread : Grammar.read line with
  | error e =>
    obtain ⟨⟨_, _, _, rfl⟩, htext, hrequests, hsource⟩ := reply_of_unread hok hread
    rw [htext, hrequests, hsource]
    exact .refused hblank hread
  | ok n =>
    obtain ⟨times, lines, htimes, hlines, htext, hrequests, hsource⟩ := reply_of_read hok hread
    obtain ⟨evaluations, shown, hrun, hshown, rfl, hsource', hrequests'⟩ := repeatLines_ok hlines
    rw [htext, hrequests, hrequests', hsource, hsource']
    exact .rolled hblank hread htimes hrun hshown

end

theorem prints_of_answerLine {text : String} (h : (answerLine limits o line s).result = .ok text) :
    Prints limits o line s ⟨line, text, (answerLine limits o line s).requests⟩
      (answerLine limits o line s).source := by
  cases hblank : Text.isBlankText line.toList with
  | true =>
    rw [answerLine, if_pos hblank] at h ⊢
    cases h
    exact .blank hblank
  | false =>
    rw [answerLine, if_neg (by simp [hblank])] at h ⊢
    obtain ⟨r, hr, h⟩ := Rolled.exists_of_andThen_ok h
    cases h
    rw [Rolled.andThen_pure hr]
    exact prints_of_reply hr hblank

/-! ## All lines -/

/-- All lines answered one after another. -/
def converse (limits : Limits) (o : Options) : List String → σ → Rolled σ (List String)
  | [], s => .pure [] s
  | line :: lines, s => (answerLine limits o line s).andThen fun text s =>
      (converse limits o lines s).andThen fun texts s => .pure (text :: texts) s

/-- Every line is asked for, also the one that does not come. -/
def transcript : List String → String
  | [] => prompt ++ "\n"
  | text :: texts => prompt ++ text ++ transcript texts

/-- Between the answers there are only prompts. -/
theorem interactive_eq (limits : Limits) (o : Options) (lines : List String) (s : σ) :
    let answers := converse limits o lines s
    (interactive limits o lines s).result = answers.result.map (fun _ => 0) ∧
      (interactive limits o lines s).records = answers.records ∧
      ∀ texts, answers.result = .ok texts →
        (interactive limits o lines s).output = transcript texts := by
  induction lines generalizing s with
  | nil => exact ⟨rfl, rfl, fun texts h => by cases h; rfl⟩
  | cons line lines ih =>
    simp only [interactive, converse]
    cases hline : (answerLine limits o line s).result with
    | error e => simp [Rolled.andThen, hline, Except.map]
    | ok text =>
      obtain ⟨hresult, hrecords, houtput⟩ := ih (answerLine limits o line s).source
      rw [Rolled.andThen_ok hline]
      cases hrest : (converse limits o lines (answerLine limits o line s).source).result with
      | error e =>
        rw [hrest] at hresult
        simp [Rolled.andThen, Rolled.after, Ran.after, hrest, hresult, hrecords, Except.map]
      | ok texts =>
        rw [hrest] at hresult
        rw [Rolled.andThen_pure hrest]
        refine ⟨hresult, congrArg (_ ++ ·) hrecords, fun _ h => ?_⟩
        cases h
        exact congrArg (prompt ++ text ++ ·) (houtput texts hrest)

/-- What is printed for a line that is answered is its block, and nothing else of it is left to the
lines behind it. -/
theorem converse_blocks {texts : List String} (h : (converse limits o lines s).result = .ok texts) :
    ∃ blocks, Blocks limits o lines s blocks (converse limits o lines s).source ∧
      texts = blocks.map Block.text ∧
      (converse limits o lines s).requests = blocks.flatMap Block.requests ∧
      (converse limits o (lines.filter isRoll) s).result =
        .ok ((blocks.filter (isRoll ·.line)).map Block.text) ∧
      (converse limits o (lines.filter isRoll) s).requests =
        (converse limits o lines s).requests := by
  induction lines generalizing s texts with
  | nil => cases h; exact ⟨[], .none, rfl, rfl, rfl, rfl⟩
  | cons line lines ih =>
    rw [converse] at h ⊢
    obtain ⟨text, htext, h⟩ := Rolled.exists_of_andThen_ok h
    obtain ⟨rest, hrest, h⟩ := Rolled.exists_of_andThen_ok h
    cases h
    have hprints := prints_of_answerLine htext
    obtain ⟨blocks, hblocks, rfl, hrequests, hkept, hsame⟩ := ih hrest
    rw [Rolled.andThen_ok htext, Rolled.andThen_pure hrest]
    refine ⟨_ :: blocks, .more hprints hblocks, rfl, congrArg (_ ++ ·) hrequests, ?_⟩
    rw [List.filter_cons, List.filter_cons]
    cases hline : isRoll line with
    | true =>
      rw [if_pos rfl, if_pos rfl, converse, Rolled.andThen_ok htext, Rolled.andThen_pure hkept]
      exact ⟨rfl, congrArg (_ ++ ·) hsame⟩
    | false =>
      obtain ⟨hnone, hsource⟩ := hprints.undisturbed hline
      rw [hsource] at hkept hsame ⊢
      exact ⟨hkept, hsame.trans (congrArg (· ++ _) hnone).symm⟩

theorem interactive_converse {blocks : List Block}
    (h : (converse limits o lines s).result = .ok (blocks.map Block.text)) :
    (interactive limits o lines s).result = .ok 0 ∧
      (interactive limits o lines s).output = transcript (blocks.map Block.text) := by
  obtain ⟨hresult, _, houtput⟩ := interactive_eq limits o lines s
  rw [h] at hresult
  exact ⟨hresult, houtput _ h⟩

/-- A conversation that ends well consists of one block for each line, with nothing but a prompt
for a blank one. A notation is rolled on what the notations before it have left, and of another text
is told what is wrong with it. Without all lines but the notations the same is printed for these,
and the same is asked of the source. -/
theorem interactive_blocks (h : (interactive limits o lines s).result = .ok 0) :
    ∃ blocks s', Blocks limits o lines s blocks s' ∧
      (interactive limits o lines s).output = transcript (blocks.map Block.text) ∧
      (converse limits o lines s).requests = blocks.flatMap Block.requests ∧
      let kept := lines.filter isRoll
      let rolled := blocks.filter (isRoll ·.line)
      (interactive limits o kept s).result = .ok 0 ∧ Blocks limits o kept s rolled s' ∧
        (interactive limits o kept s).output = transcript (rolled.map Block.text) ∧
        (converse limits o kept s).requests = (converse limits o lines s).requests := by
  have hanswers : ∃ texts, (converse limits o lines s).result = .ok texts := by
    rw [(interactive_eq limits o lines s).1] at h
    cases hr : (converse limits o lines s).result with
    | error e => rw [hr] at h; cases h
    | ok texts => exact ⟨texts, rfl⟩
  obtain ⟨_, hanswers⟩ := hanswers
  obtain ⟨blocks, hblocks, rfl, hrequests, hkept, hsame⟩ := converse_blocks hanswers
  obtain ⟨hresult, houtput⟩ := interactive_converse hkept
  exact ⟨blocks, _, hblocks, (interactive_converse hanswers).2, hrequests, hresult,
    hblocks.filter, houtput, hsame⟩

/-- Two blank lines, a text that is no notation, and two notations. -/
theorem interactive_blocks_mixed :
    let s := Source.ofValues [4]
    let lines := ["", "x", "1d6", " ", "7"]
    (interactive .standard .standard lines s).result = .ok 0 ∧
      lines.filter isRoll = ["1d6", "7"] ∧
      (interactive .standard .standard ["1d6", "7"] s).output =
        "> 1d6 = (4) = 4\n> 7 = 7 = 7\n> \n" ∧
      (converse .standard .standard lines s).requests = [⟨1, 7⟩] ∧
      (converse .standard .standard ["1d6", "7"] s).requests = [⟨1, 7⟩] := by
  intro s lines
  have hok : (interactive .standard .standard lines s).result = .ok 0 := by
    have hsome : (interactive .standard .standard lines s).result.toOption = some 0 := by
      decide +kernel
    cases hr : (interactive .standard .standard lines s).result with
    | error e => rw [hr] at hsome; cases hsome
    | ok n => rw [hr] at hsome; cases hsome; rfl
  have hkept : lines.filter isRoll = ["1d6", "7"] := by decide +kernel
  have hrequests : (converse .standard .standard lines s).requests = [⟨1, 7⟩] := by decide +kernel
  obtain ⟨_, _, _, _, _, _, _, _, hsame⟩ := interactive_blocks hok
  rw [hkept, hrequests] at hsame
  exact ⟨hok, hkept, by decide +kernel, hrequests, hsame⟩

end Command

end Dice
