import Dice.Evaluation.Generation
import Dice.Proofs.Draws.Returns

/-!
# Dice.Proofs.Evaluation.Generation

What comes of drawing dice, for given answers.

* `returns_drawPool`, `returns_chain`, `returns_chain_bind` : the events drawn are the answers, in
  order.
* `Handled` : every die in play handled by itself, with the answers that it used.
* `returns_eachLive_iff` : handling all dice is that, with everything added put at the end.
-/

namespace Dice

theorem Event.exists_die_of_isLive {e : Event} (h : e.isLive = true) :
    ∃ d, e.die = some d ∧ d.rollable = true := by
  simp only [isLive, isDie, Bool.and_eq_true] at h
  cases hd : e.die with
  | none => simp [hd] at h
  | some d => exact ⟨d, rfl, by simpa [hd] using h.2⟩

namespace Evaluation

open Draws (Returns)

theorem returns_drawDie_iff {d : Die} {origin : Origin} {answers : List Int} {e : Event} :
    Returns (drawDie d origin) answers e ↔
      d.range?.isSome ∧ ∃ value, answers = [value] ∧ e = .drawn d origin value := by
  unfold drawDie
  cases d.range? with
  | none => simp
  | some range =>
    simp only [Draws.returns_draw_iff, Draws.returns_done_iff, Option.isSome_some, true_and]
    constructor
    · rintro ⟨value, _, rfl, rfl, rfl⟩
      exact ⟨value, rfl, rfl⟩
    · rintro ⟨value, rfl, rfl⟩
      exact ⟨value, [], rfl, rfl, rfl⟩

theorem returns_drawPool {d : Die} {count : Nat} {drawn events : List Event} {answers : List Int}
    (h : Returns (drawPool d count drawn) answers events) :
    events = drawn.reverse ++ answers.map (Event.drawn d .initial) ∧ answers.length = count := by
  induction count generalizing drawn answers with
  | zero =>
    obtain ⟨rfl, rfl⟩ := Draws.returns_done_iff.mp h
    simp
  | succ count ih =>
    obtain ⟨first, e, rest, rfl, he, hrest⟩ := Draws.returns_bind_iff.mp h
    obtain ⟨_, value, rfl, rfl⟩ := returns_drawDie_iff.mp he
    obtain ⟨rfl, hlen⟩ := ih hrest
    simp [hlen]

/-- A chain is made of the answers, and there are none for a die that cannot be drawn. -/
theorem returns_chain {p : Point} {d : Die} {origin : Origin} {warning : Int → Warning}
    {left : Nat} {last : Int} {drawn events : List Event} {answers : List Int}
    (h : Returns (chain p (drawDie d origin) warning left last drawn) answers events) :
    events = drawn.reverse ++ answers.map (Event.drawn d origin) ∧
      (answers = [] ∨ d.range?.isSome) := by
  induction left generalizing last drawn answers with
  | zero =>
    unfold chain at h
    split at h
    · exact absurd h Draws.not_returns_fail
    · obtain ⟨rfl, rfl⟩ := Draws.returns_done_iff.mp h
      simp
    · obtain ⟨rfl, rfl⟩ := Draws.returns_done_iff.mp (Draws.returns_warn_iff.mp h)
      simp
  | succ left ih =>
    unfold chain at h
    split at h
    · exact absurd h Draws.not_returns_fail
    · obtain ⟨rfl, rfl⟩ := Draws.returns_done_iff.mp h
      simp
    · obtain ⟨first, e, rest, rfl, he, hrest⟩ := Draws.returns_bind_iff.mp h
      obtain ⟨hd, value, rfl, rfl⟩ := returns_drawDie_iff.mp he
      obtain ⟨rfl, _⟩ := ih hrest
      exact ⟨by simp, .inr hd⟩

/-- A chain from its start, with whatever is made of it. -/
theorem returns_chain_bind {α : Type} {p : Point} {d : Die} {origin : Origin}
    {warning : Int → Warning} {limit : Nat} {last : Int} {f : List Event → Draws α}
    {answers : List Int} {a : α}
    (h : Returns ((chain p (drawDie d origin) warning limit last []).bind f) answers a) :
    ∃ first rest, answers = first ++ rest ∧ (first = [] ∨ d.range?.isSome) ∧
      Returns (f (first.map (Event.drawn d origin))) rest a := by
  obtain ⟨first, drawn, rest, rfl, hchain, hrest⟩ := Draws.returns_bind_iff.mp h
  obtain ⟨hdrawn, hd⟩ := returns_chain hchain
  rw [List.reverse_nil, List.nil_append] at hdrawn
  rw [hdrawn] at hrest
  exact ⟨first, rest, rfl, hd, hrest⟩

/-! ## Every die in play -/

/-- The events, the answers used for them, what they have become, and what is added. -/
inductive Handled (handle : Event → Die → Draws (Event × List Event)) :
    List Event → List Int → List Event → List Event → Prop where
  | nil : Handled handle [] [] [] []
  | skip {e : Event} {events handled added : List Event} {answers : List Int} :
      e.isLive = false → Handled handle events answers handled added →
      Handled handle (e :: events) answers (e :: handled) added
  | live {e e' : Event} {d : Die} {events handled added more : List Event}
      {first rest : List Int} :
      e.isLive = true → e.die = some d → Returns (handle e d) first (e', more) →
      Handled handle events rest handled added →
      Handled handle (e :: events) (first ++ rest) (e' :: handled) (more ++ added)

theorem returns_eachLive {handle : Event → Die → Draws (Event × List Event)}
    {events before added result : List Event} {answers : List Int} :
    Returns (eachLive handle events before added) answers result ↔
      ∃ handled more, Handled handle events answers handled more ∧
        result = before.reverse ++ handled ++ (added.reverse ++ more) := by
  induction events generalizing before added answers with
  | nil =>
    rw [eachLive, Draws.returns_done_iff]
    constructor
    · rintro ⟨rfl, rfl⟩
      exact ⟨[], [], .nil, by simp⟩
    · rintro ⟨handled, more, h, rfl⟩
      cases h
      simp
  | cons e events ih =>
    cases hl : e.isLive with
    | false =>
      rw [eachLive, hl]
      simp only [ih]
      constructor
      · rintro ⟨handled, more, h, rfl⟩
        exact ⟨e :: handled, more, .skip hl h, by simp⟩
      · rintro ⟨handled, more, h, rfl⟩
        cases h with
        | skip _ h => exact ⟨_, _, h, by simp⟩
        | live hl' => rw [hl] at hl'; cases hl'
    | true =>
      obtain ⟨d, hd, _⟩ := Event.exists_die_of_isLive hl
      rw [eachLive, hl, hd]
      simp only [Draws.returns_bind_iff, ih]
      constructor
      · rintro ⟨first, ⟨e', new⟩, rest, rfl, he, handled, more, h, rfl⟩
        exact ⟨e' :: handled, new ++ more, .live hl hd he h, by simp⟩
      · rintro ⟨handled, more, h, rfl⟩
        cases h with
        | skip hl' => rw [hl] at hl'; cases hl'
        | live _ hd' he h =>
          rw [hd] at hd'
          cases hd'
          exact ⟨_, _, _, rfl, he, _, _, h, by simp⟩

/-- The dice in play are handled in order; all that they add stands at the end. -/
theorem returns_eachLive_iff {handle : Event → Die → Draws (Event × List Event)}
    {events result : List Event} {answers : List Int} :
    Returns (eachLive handle events [] []) answers result ↔
      ∃ handled added, Handled handle events answers handled added ∧ result = handled ++ added := by
  simp [returns_eachLive]

end Evaluation

end Dice
