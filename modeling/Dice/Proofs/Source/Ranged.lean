import Dice.Proofs.Draws.Faultless

/-!
# Dice.Proofs.Source.Ranged

Sources that answer every range within 64 bits that holds a number, and no other.

* `Ranged keeps` : the sources of which `keeps` is true are such, and stay so.
* `Ranged.run`, `Within.run_ranged` : a run on such a source fails only at a request that is out of
  range.
* `Source.IsTwister`, `Source.ranged_isTwister` : twisters are such sources.
-/

namespace Dice

variable {σ : Type} [RandomSource σ]

/-- What the answers are does not matter. -/
structure Ranged (keeps : σ → Prop) : Prop where
  answers {s : σ} {r : Request} : keeps s → Source.rangeError? r = none →
    ∃ value s', RandomSource.next s r = (.ok value, s') ∧ keeps s'
  refuses {s : σ} {r : Request} {e : SourceError} : keeps s → Source.rangeError? r = some e →
    ∃ s', RandomSource.next s r = (.error e, s') ∧ keeps s'

variable {keeps : σ → Prop}

theorem Ranged.next (h : Ranged keeps) {s s' : σ} {r : Request} {answer : Except SourceError Int}
    (hs : keeps s) (hnext : RandomSource.next s r = (answer, s')) : keeps s' := by
  cases hrange : Source.rangeError? r with
  | none =>
    obtain ⟨_, _, hanswer, hs'⟩ := h.answers hs hrange
    cases hnext.symm.trans hanswer
    exact hs'
  | some e =>
    obtain ⟨_, hanswer, hs'⟩ := h.refuses hs hrange
    cases hnext.symm.trans hanswer
    exact hs'

/-! ## Runs -/

section

open Draws

variable {α : Type}

theorem Ranged.run (h : Ranged keeps) (p : Draws α) {s : σ} (hs : keeps s) :
    keeps (p.run s).source := by
  obtain ⟨_, hasked⟩ := run_asked p s
  exact hasked.preserves (fun hnext hs => h.next hs hnext) hs

/-- No request that is in range fails. -/
theorem Draws.Within.run_ranged {P : Request → Prop} {p : Draws α} (hp : p.Within P)
    (h : Ranged keeps) {s : σ} (hs : keeps s) :
    (∃ a, (p.run s).result = .ok a) ∨
      ∃ r e, P r ∧ Source.rangeError? r = some e ∧ (p.run s).result = .error (.source e) := by
  induction p generalizing s with
  | done a => exact .inl ⟨a, rfl⟩
  | fail e => exact hp.elim
  | warn w rest ih =>
    rw [run_warn]
    exact ih hp hs
  | draw r next ih =>
    obtain ⟨hr, hnext⟩ := hp
    cases hrange : Source.rangeError? r with
    | none =>
      obtain ⟨value, s', hanswer, hs'⟩ := h.answers hs hrange
      rw [run_draw_ok hanswer]
      exact ih value (hnext value) hs'
    | some e =>
      obtain ⟨s', hanswer, _⟩ := h.refuses hs hrange
      rw [run_draw_error hanswer]
      exact .inr ⟨r, e, hr, hrange, rfl⟩

end

/-! ## Twisters -/

namespace Source

def IsTwister (s : Source) : Prop :=
  ∃ seed state, s = .twister seed state

theorem isTwister_ofSeed (seed : Int) : (Source.ofSeed seed).IsTwister :=
  ⟨_, _, rfl⟩

theorem ranged_isTwister : Ranged IsTwister where
  answers := by
    rintro _ r ⟨seed, state, rfl⟩ hrange
    have hnext : RandomSource.next (Source.twister seed state) r =
        (.ok (r.low + (Twister.upTo (r.high - 1 - r.low).toNat state).1),
          .twister seed (Twister.upTo (r.high - 1 - r.low).toNat state).2) := by
      simp only [RandomSource.next, answer, hrange]
    exact ⟨_, _, hnext, seed, _, rfl⟩
  refuses := by
    rintro _ r e ⟨seed, state, rfl⟩ hrange
    have hnext : RandomSource.next (Source.twister seed state) r =
        (.error e, .twister seed state) := by
      simp only [RandomSource.next, answer, hrange]
    exact ⟨_, hnext, seed, state, rfl⟩

end Source

end Dice
