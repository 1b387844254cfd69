import Dice.Proofs.Evaluation.Handling

/-!
# Dice.Proofs.Evaluation.Growth

What one modifier does to the events of a pool.

* `Event.bare` : an event apart from what became of it.
* `Provenance`, `drawnValues` : the events that were drawn, among those that have just come in.
* `Grows before answers after` : the events before stay in their places, whatever becomes of them;
  those that come in stand behind them, and the drawn ones show the answers, in order.
* `applyModifier_grows` : this is what every modifier does.
-/

namespace Dice

/-- The event as if nothing had become of it. -/
def Event.bare (e : Event) : Event :=
  { e with status := .kept, mark := .neutral }

@[simp] theorem Event.bare_value (e : Event) : e.bare.value = e.value := rfl

@[simp] theorem Event.bare_group (e : Event) : e.bare.group = e.group := rfl

@[simp] theorem Event.bare_groupSign (e : Event) : e.bare.groupSign = e.groupSign := rfl

@[simp] theorem Event.bare_discard (e : Event) : e.discard.bare = e.bare := rfl

@[simp] theorem Event.bare_dropped (e : Event) : e.dropped.bare = e.bare := rfl

@[simp] theorem Event.isDie_discard (e : Event) : e.discard.isDie = e.isDie := rfl

@[simp] theorem Event.isKept_discard (e : Event) : e.discard.isKept = false := rfl

/-- An event of no term of a sum. -/
def Event.Ungrouped (e : Event) : Prop :=
  e.group = none ∧ e.groupSign = none

theorem Event.Incoming.ungrouped {e : Event} (h : e.Incoming) : e.Ungrouped := by
  obtain ⟨d, origin, value, _, rfl | rfl⟩ := h <;> exact ⟨rfl, rfl⟩

/-- A drawn event shows an answer of the source; everything else is added. -/
inductive Provenance where
  | drawn
  | added
  deriving DecidableEq

/-- The provenance of an event that has just come in. Constants and counts are added, and so is the
sum that a compound puts in place of its dice: the dice of the chain are discarded as they come in,
and of all compounds only the sum is kept. -/
def Event.provenance (e : Event) : Provenance :=
  if e.isDie && !(e.origin = .compound && e.isKept) then .drawn else .added

namespace Evaluation

open Draws (Returns)

/-- The values of the drawn events among those that have just come in. -/
def drawnValues (events : List Event) : List Int :=
  (events.filter fun e => e.provenance = .drawn).map Event.value

@[simp] theorem drawnValues_nil : drawnValues [] = [] := rfl

@[simp] theorem drawnValues_append (first rest : List Event) :
    drawnValues (first ++ rest) = drawnValues first ++ drawnValues rest := by
  simp [drawnValues]

theorem drawnValues_cons (e : Event) (events : List Event) :
    drawnValues (e :: events) =
      (if e.provenance = .drawn then [e.value] else []) ++ drawnValues events := by
  by_cases h : e.provenance = .drawn <;> simp [drawnValues, h]

theorem drawnValues_eq_map {events : List Event} (h : ∀ e ∈ events, e.provenance = .drawn) :
    drawnValues events = events.map Event.value := by
  unfold drawnValues
  rw [List.filter_eq_self.mpr]
  simpa using h

structure Grows (before : List Event) (answers : List Int) (after : List Event) : Prop where
  grown : ∃ old new, after = old ++ new ∧ old.map Event.bare = before.map Event.bare ∧
    (∀ e ∈ new, e.Ungrouped) ∧ answers = drawnValues new

/-- A modifier that adds nothing. -/
theorem Grows.of_bare {before after : List Event} (h : after.map Event.bare = before.map Event.bare) :
    Grows before [] after :=
  ⟨after, [], by simp, h, by simp, rfl⟩

/-! ## Dice that have just come in -/

theorem ungrouped_drawn (d : Die) (origin : Origin) (value : Int) :
    (Event.drawn d origin value).Ungrouped :=
  ⟨rfl, rfl⟩

theorem isDie_drawn {d : Die} (h : d.range?.isSome) (origin : Origin) (value : Int) :
    (Event.drawn d origin value).isDie = true := by
  by_cases ho : origin = .reroll
  · simp [Event.isDie, Event.drawn, ho, Die.again, Die.rollable]
  · simpa [Event.isDie, Event.drawn, ho, Die.base, Die.rollable, Die.range?] using h

theorem provenance_drawn {d : Die} (h : d.range?.isSome) {origin : Origin} (ho : origin ≠ .compound)
    (value : Int) : (Event.drawn d origin value).provenance = .drawn := by
  have hne : (Event.drawn d origin value).origin ≠ .compound := ho
  simp [Event.provenance, isDie_drawn h, hne]

theorem provenance_discard {e : Event} (h : e.isDie = true) : e.discard.provenance = .drawn := by
  simp [Event.provenance, h]

/-- The answers that one die used, as the events added for it show them. -/
theorem drawnValues_drawn {d : Die} (hd : d.range?.isSome) {origin : Origin}
    (ho : origin ≠ .compound) (answers : List Int) :
    drawnValues (answers.map (Event.drawn d origin)) = answers := by
  rw [drawnValues_eq_map]
  · simp [Function.comp_def, Event.drawn]
  · simp only [List.mem_map, forall_exists_index, and_imp, forall_apply_eq_imp_iff₂]
    intro value _
    exact provenance_drawn hd ho value

theorem drawnValues_discardAllButLast (events : List Event)
    (h : ∀ e ∈ events, e.origin ≠ .compound) :
    drawnValues (discardAllButLast events) = drawnValues events := by
  induction events with
  | nil => rfl
  | cons e rest ih =>
    cases rest with
    | nil => rfl
    | cons e' rest =>
      have he : e.discard.provenance = e.provenance := by
        have hne : e.origin ≠ .compound := h e List.mem_cons_self
        have hne' : e.discard.origin ≠ .compound := hne
        simp [Event.provenance, hne, hne']
      rw [discardAllButLast, drawnValues_cons, drawnValues_cons, he,
        ih fun x hx => h x (List.mem_cons_of_mem _ hx)]
      · rfl
      · simp

theorem drawnValues_chain_sum {e : Event} {d : Die} {answers : List Int} (hd : d.range?.isSome) :
    drawnValues ((answers.map (Event.drawn d .compound)).map Event.discard ++
      [compoundSum e d (answers.map (Event.drawn d .compound))]) = answers := by
  have hsum : drawnValues [compoundSum e d (answers.map (Event.drawn d .compound))] = [] := by
    simp [drawnValues, Event.provenance, compoundSum, Event.drawn, Event.isKept]
  rw [drawnValues_append, hsum, List.append_nil, drawnValues_eq_map]
  · simp [Function.comp_def, Event.drawn, Event.discard]
  · simp only [List.mem_map, forall_exists_index, and_imp, forall_apply_eq_imp_iff₂]
    intro value _
    exact provenance_discard (isDie_drawn hd _ value)

/-! ## The first phase -/

theorem Handling.bare {e e' : Event} {d : Die} {answers : List Int} {more : List Event}
    (h : Handling e d answers e' more) : e'.bare = e.bare := by
  cases h <;> rfl

theorem Handling.drawnValues {e e' : Event} {d : Die} {answers : List Int} {more : List Event}
    (h : Handling e d answers e' more) : answers = drawnValues more := by
  cases h with
  | stands => rfl
  | reroll _ hd =>
    rw [drawnValues_discardAllButLast, drawnValues_drawn hd (by decide)]
    simp [Event.drawn]
  | explosion _ hd => rw [drawnValues_drawn hd (by decide)]
  | compound _ hd => rw [drawnValues_chain_sum hd]

theorem Handled.grows {handle : Event → Die → Draws (Event × List Event)}
    (hh : ∀ e d answers e' more, Returns (handle e d) answers (e', more) →
      Handling e d answers e' more)
    {events handled added : List Event} {answers : List Int}
    (h : Handled handle events answers handled added) :
    Grows events answers (handled ++ added) := by
  refine ⟨handled, added, rfl, ?_⟩
  induction h with
  | nil => exact ⟨rfl, by simp, rfl⟩
  | skip _ _ ih =>
    obtain ⟨hold, hnew, hans⟩ := ih
    exact ⟨by simp [hold], hnew, hans⟩
  | live _ _ he _ ih =>
    obtain ⟨hold, hnew, rfl⟩ := ih
    have hone := hh _ _ _ _ _ he
    refine ⟨by simp [hold, hone.bare], List.forall_mem_append.mpr ⟨?_, hnew⟩, ?_⟩
    · exact fun x hx => (hone.incoming x hx).ungrouped
    · rw [drawnValues_append, ← hone.drawnValues]

theorem generation_grows {limits : Limits} {m : Modifier} (hm : m.phase = .generation)
    {pool : List Bool} {events after : List Event} {answers : List Int}
    (h : Returns (applyModifier limits m pool events) answers after) :
    Grows events answers after := by
  obtain ⟨handle, heach, hhandling, _⟩ := exists_handlesBy limits hm pool
  rw [heach] at h
  obtain ⟨handled, added, hall, rfl⟩ := returns_eachLive_iff.mp h
  exact hall.grows hhandling

/-! ## Modifiers without draws -/

theorem dropPlaces_bare (dropped : List Nat) (events : List Event) :
    (dropPlaces dropped events).map Event.bare = events.map Event.bare := by
  have hitem : ∀ item : Event × Nat,
      (if dropped.contains item.2 then item.1.dropped else item.1).bare = item.1.bare := by
    intro item
    split <;> rfl
  calc (dropPlaces dropped events).map Event.bare
      = (events.zipIdx.map Prod.fst).map Event.bare := by
        simp only [dropPlaces, List.map_map, Function.comp_def, hitem]
    _ = events.map Event.bare := by rw [List.zipIdx_map_fst]

theorem markHits_bare (m : Mark) (found : List Bool) (events : List Event) :
    (markHits m found events).map Event.bare = events.map Event.bare := by
  induction found generalizing events with
  | nil => simp [markHits]
  | cons hit found ih =>
    cases events with
    | nil => rfl
    | cons e events =>
      rw [markHits, List.map_cons, List.map_cons, ih]
      split <;> rfl

theorem collapse_bare (e : Event) : (collapse e).bare = e.bare := by
  unfold collapse
  split <;> rfl

theorem exists_of_count {m : Mark} {p : Point} {pool : List Bool} {events after : List Event}
    (h : count m p pool events = .ok after) :
    ∃ old number, after = old ++ [tally m number] ∧ old.map Event.bare = events.map Event.bare := by
  unfold count at h
  cases hh : hits p pool events with
  | error e => rw [hh] at h; cases h
  | ok found =>
    rw [hh] at h
    cases h
    refine ⟨_, _, rfl, ?_⟩
    rw [List.map_map, ← markHits_bare m found events]
    exact List.map_congr_left fun e _ => collapse_bare e

theorem count_grows {m : Mark} {p : Point} {pool : List Bool} {events after : List Event}
    (h : count m p pool events = .ok after) : Grows events [] after := by
  obtain ⟨old, number, rfl, hold⟩ := exists_of_count h
  refine ⟨old, _, rfl, hold, ?_, ?_⟩
  · simp [tally, Event.Ungrouped, Event.summary]
  · simp [drawnValues, tally, Event.provenance, Event.isDie, Event.summary, Die.rollable,
      DieKind.range?]

theorem adjust_grows (amount : Int) (events : List Event) :
    Grows events [] (adjust amount events) := by
  refine ⟨events, [.summary .constant amount], rfl, rfl, ?_, ?_⟩
  · simp [Event.Ungrouped, Event.summary]
  · simp [drawnValues, Event.provenance, Event.isDie, Event.summary, Die.rollable, DieKind.range?]

/-! ## Any modifier -/

theorem applyModifier_grows {limits : Limits} {m : Modifier} {pool : List Bool}
    {events after : List Event} {answers : List Int}
    (h : Returns (applyModifier limits m pool events) answers after) :
    Grows events answers after := by
  by_cases hm : m.phase = .generation
  · exact generation_grows hm h
  · obtain ⟨rfl, hreckoning⟩ := returns_reckoning hm h
    cases hreckoning with
    | drops _ => exact .of_bare (dropPlaces_bare _ _)
    | counts hc => exact count_grows hc
    | adds amount => exact adjust_grows amount events

end Evaluation

end Dice
