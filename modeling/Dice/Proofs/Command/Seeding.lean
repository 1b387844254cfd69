import Dice.Command.Logged
import Dice.Proofs.Command.Conversation
import Dice.Proofs.Source.Twister

/-!
# Dice.Proofs.Command.Seeding

What a run of the program takes from the clock.

* `seedOf_of_ne_zero`, `seedOf_zero` : a seed that is given is taken, unless it is zero.
* `perform_congr` : nothing but the seed of a run can come from the clock.
* `run_of_seed` : a run with a given seed does not depend on the clock, unless the seed is zero:
  then it is a run without a seed.
* `once_output`, `run_output` : what a run with a text that is rolled once prints.
* `run_zero_seed_changes` : a seed of zero prints another result a second later.
-/

namespace Dice

namespace Command

open Notation (read_of_text)

variable {o : Options} {s : Int}

/-! ## The seed of a run -/

theorem seedOf_of_ne_zero (h : o.seed = some (.value s)) (hs : s ≠ 0) (now : Moment) :
    seedOf o now = (s % (Source.seedCount : Int)).toNat := by
  have htruthy : (Datum.int s).truthy = true := by simpa [Datum.truthy] using hs
  simp only [seedOf, h, Seed.choose, htruthy, if_true]
  rfl

/-- Zero counts as no seed at all. -/
theorem seedOf_zero (h : o.seed = some (.value 0)) (now : Moment) :
    seedOf o now = seedOf { o with seed := none } now := by
  simp only [seedOf, h]
  rfl

/-! ## Runs -/

/-- The seed has done its part when the source is there. -/
theorem reply_seed (limits : Limits) (o : Options) (seed : Option (Given Int)) (text : String)
    (s : Source) : reply limits { o with seed := seed } text s = reply limits o text s := by
  unfold reply
  rfl

theorem interactive_seed (limits : Limits) (o : Options) (seed : Option (Given Int))
    (lines : List String) (s : Source) :
    interactive limits { o with seed := seed } lines s = interactive limits o lines s := by
  induction lines generalizing s with
  | nil => rfl
  | cons line lines ih => simp only [interactive, answerLine, reply_seed, ih]

theorem perform_congr (seed : Option (Given Int)) {now now' : Moment}
    (h : seedOf o now = seedOf { o with seed := seed } now') (settings : Datum) (input : String) :
    perform settings o input now = perform settings { o with seed := seed } input now' := by
  have honce (limits : Limits) (s : Source) :
      once limits { o with seed := seed } s = once limits o s := by
    unfold once
    rw [reply_seed]
  simp only [perform, h, interactive_seed, honce]

theorem runLogged_eq (start : Log.Book → Except Path.NotFound Log.Book) (settings : Datum)
    (words : List String) (input : String) (now : Moment) (time : String) (b : Log.Book) :
    (runLogged start settings words input now time b).1 =
      match Options.read words, start b with
      | .ok _, .error e => ⟨.error (.notFound e), "", []⟩
      | _, _ =>
        let ran := run settings words input now
        ⟨ran.result.mapError .command, ran.output, ran.records⟩ := by
  unfold runLogged run
  cases Options.read words with
  | error stop => rfl
  | ok o => cases start b <;> rfl

/-- Whatever the words are, as long as they give a seed other than zero, the run is the same at any
time, also with log files that are written at any other time. A seed of zero is not taken: the run
is that of the same options without a seed, whose seed is made of the time. -/
theorem run_of_seed (settings : Datum) {words : List String}
    (hseed : ∀ o, Options.read words = .ok o → o.seed = some (.value s)) (input : String) :
    (s ≠ 0 → ∀ now now', run settings words input now = run settings words input now' ∧
      ∀ start time time' b, (runLogged start settings words input now time b).1 =
        (runLogged start settings words input now' time' b).1) ∧
    (s = 0 → ∀ o, Options.read words = .ok o → ∀ now,
      run settings words input now = perform settings { o with seed := none } input now) := by
  refine ⟨fun hs now now' => ?_, ?_⟩
  · have hrun : run settings words input now = run settings words input now' := by
      unfold run
      cases hread : Options.read words with
      | error stop => rfl
      | ok o =>
        have hgiven := hseed o hread
        refine perform_congr o.seed ?_ settings input
        exact (seedOf_of_ne_zero hgiven hs now).trans (seedOf_of_ne_zero hgiven hs now').symm
    refine ⟨hrun, fun start time time' b => ?_⟩
    rw [runLogged_eq, runLogged_eq, hrun]
  · rintro rfl o hread now
    rw [run, hread]
    exact perform_congr none (seedOf_zero (hseed o hread) now) settings input

/-- The seed may be any integer, also one below zero. -/
theorem run_of_seed_negative :
    let words := ["-s", "-7", "-t", "2", "-d", "2d6"]
    (∀ o, Options.read words = .ok o → o.seed = some (.value (-7))) ∧
      ∀ now now', run Settings.shipped words "" now = run Settings.shipped words "" now' := by
  intro words
  let o : Options := ⟨true, ["2d6"], some (.value (-7)), .value 2⟩
  have hread : Options.read words = .ok o := by rfl
  have hseed : ∀ o, Options.read words = .ok o → o.seed = some (.value (-7)) := by
    intro o' ho'
    cases hread.symm.trans ho'
    rfl
  refine ⟨hseed, fun now now' => ?_⟩
  exact ((run_of_seed Settings.shipped hseed "").1 (by decide) now now').1

/-! ## A text that is rolled once -/

section

variable {limits : Limits} {text line : String} {n : Node} {e : Evaluation}
  {source source' : Source}

theorem repeatLines_one {detailed : Bool} {lines : List String}
    (he : ((n.evaluate limits).run source).result = .ok e)
    (hlines : evaluationLines text detailed e = .ok lines) :
    (repeatLines limits text detailed n 1 source).Gives lines
      ((n.evaluate limits).run source).source := by
  have hshown : (⟨evaluationLines text detailed e, ((n.evaluate limits).run source).source, [],
      []⟩ : Rolled Source (List String)).Gives lines ((n.evaluate limits).run source).source :=
    ⟨hlines, rfl⟩
  have hgives : (repeatLines limits text detailed n 1 source).Gives (lines ++ []) _ :=
    (rollNode_gives he).andThen
      (hshown.andThen ((Rolled.gives_pure [] _).andThen (Rolled.gives_pure (lines ++ []) _)))
  rwa [List.append_nil] at hgives

theorem once_of_reply {r : Reply}
    (h : (reply limits o (" ".intercalate o.words) source).Gives r source') :
    (once limits o source).output = r.text := by
  unfold once
  -- only what is replied counts, and the parser is too large to be looked into
  generalize reply limits o (" ".intercalate o.words) source = replied at h ⊢
  obtain ⟨hresult, _⟩ := h
  simp only [hresult]

theorem once_output (hwords : o.words = [text]) (htimes : o.times = .value 1)
    (hread : Grammar.read text = .ok n) (he : ((n.evaluate limits).run source).result = .ok e)
    (hline : evaluationLines text o.detailed e = .ok [line]) :
    (once limits o source).output = line ++ "\n" := by
  have hreply := reply_gives htimes hread (repeatLines_one he hline)
  rw [← String.intercalate_singleton (s := " ") (t := text), ← hwords] at hreply
  exact once_of_reply hreply

theorem run_output {settings : Datum} {words : List String}
    (hwords : Options.read words = .ok o) (hlimits : Settings.limitsFrom settings = .ok limits)
    (hsome : o.words ≠ []) (input : String) (now : Moment) :
    (run settings words input now).output =
      (once limits o (Source.ofSeed (seedOf o now))).output := by
  have hempty : o.words.isEmpty = false := by simpa using hsome
  rw [run, hwords]
  simp [perform, hlimits, hempty, Ran.after]

end

/-- A die of two faces takes one bit of the next word. -/
theorem exists_next_twister (seed : Option Nat) (t : Twister) :
    ∃ source, RandomSource.next (Source.twister seed t) ⟨1, 3⟩ =
      (.ok (1 + (t.next.1.toNat &&& 1 : Nat)), source) := by
  have hrange : Source.rangeError? ⟨1, 3⟩ = none := by decide
  have hgreatest : ((3 : Int) - 1 - 1).toNat = 1 := by decide
  refine ⟨_, Prod.ext ?_ rfl⟩
  simp only [RandomSource.next, Source.answer, hrange, hgreatest, Twister.upTo_one]

theorem exists_next_ofSeed (seed : Int) :
    ∃ source, RandomSource.next (Source.ofSeed seed) ⟨1, 3⟩ =
      (.ok (1 + ((Source.twisterOf (seed % Source.seedCount).toNat).next.1.toNat &&& 1 : Nat)),
        source) :=
  exists_next_twister _ _

/-- Two runs with the same words, one second after the other. -/
theorem run_zero_seed_changes :
    let coin (second : Nat) :=
      (run Settings.shipped ["-s", "0", "1d2"] "" ⟨2020, 1, 1, 0, 0, second, 0⟩).output
    coin 0 = "1d2 = (1) = 1\n" ∧ coin 1 = "1d2 = (2) = 2\n" := by
  intro coin
  let o : Options := ⟨false, ["1d2"], some (.value 0), .value 1⟩
  let n : Node := .pool 1 (.die (.fresh (.sided 2))) (([] : List Modifier).map .modifier)
  let face (value : Int) : Evaluation := ⟨value + 0, [.drawn (.fresh (.sided 2)) .initial value]⟩
  let seed (second : Nat) : Nat := seedOf o ⟨2020, 1, 1, 0, 0, second, 0⟩
  have hwords : Options.read ["-s", "0", "1d2"] = .ok o := by rfl
  have hlimits : Settings.limitsFrom Settings.shipped = .ok .standard := by rfl
  have hread : Grammar.read "1d2" = .ok n :=
    read_of_text (.term (.pool ⟨by decide, by decide⟩ (.sided ⟨by decide, by decide⟩) (by simp)))
      rfl
  have hcoin (second bit : Nat) {line : String}
      (hbit : (Source.twisterOf ((seed second : Int) % Source.seedCount).toNat).next.1.toNat &&& 1 =
        bit)
      (hline : evaluationLines "1d2" false (face (1 + bit)) = .ok [line]) :
      coin second = line ++ "\n" := by
    obtain ⟨source, hnext⟩ := exists_next_ofSeed (seed second)
    rw [hbit] at hnext
    have he : ((n.evaluate .standard).run (Source.ofSeed (seed second))).result =
        .ok (face (1 + bit)) :=
      congrArg Run.result (Draws.run_draw_ok hnext)
    have honce := once_output (o := o) rfl rfl hread he hline
    exact (run_output hwords hlimits (List.cons_ne_nil _ _) "" _).trans honce
  have hone : Text.writable 1 = true := by decide +kernel
  have htwo : Text.writable 2 = true := by decide +kernel
  have hfirst : evaluationLines "1d2" false (face 1) = .ok ["1d2 = (1) = 1"] := by
    simp [evaluationLines, face, Event.drawn, Throw.text, Throw.ofEvaluation, Throw.require, hone]
    rfl
  have hsecond : evaluationLines "1d2" false (face 2) = .ok ["1d2 = (2) = 2"] := by
    simp [evaluationLines, face, Event.drawn, Throw.text, Throw.ofEvaluation, Throw.require, htwo]
    rfl
  refine ⟨hcoin 0 0 ?_ hfirst, hcoin 1 1 ?_ hsecond⟩
  · rw [Source.twisterOf, Twister.next_ofSeed]
    decide +kernel
  · rw [Source.twisterOf, Twister.next_ofSeed]
    decide +kernel

end Command

end Dice
