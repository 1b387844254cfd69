import Dice.Proofs.Evaluation.Handling

/-!
# Dice.Proofs.Evaluation.LifeCycle

What may become of the events of a pool while modifiers are applied to them.

* `Event.Evolves counted e e'` : the event `e` may turn into `e'` : it is dropped or discarded once,
  and marked once, if it is counted.
* `Follows pool before after` : every event has kept its place, and may have evolved; the pool
  tells which of them are counted.
* `follows_generation` : so it is after a modifier of the first phase, and nothing is dropped.
* `returns_late` : so it is after any other modifier, which draws nothing and adds no dice.
-/

namespace Dice

/-- What is not kept stays as it is, and so does a mark that is not neutral. -/
structure Event.Evolves (counted : Prop) (e e' : Event) : Prop where
  value : e'.value = e.value
  origin : e'.origin = e.origin
  die : e'.die = e.die
  significance : e'.significance = e.significance
  status : e'.status = e.status ∨ e.status = .kept
  mark : e'.mark = e.mark ∨ e.mark = .neutral ∧ counted

namespace Event.Evolves

variable {counted counted' : Prop} {e e' e'' : Event}

theorem refl (counted : Prop) (e : Event) : e.Evolves counted e :=
  ⟨rfl, rfl, rfl, rfl, .inl rfl, .inl rfl⟩

theorem trans (h : e.Evolves counted e') (h' : e'.Evolves counted e'') :
    e.Evolves counted e'' := by
  refine ⟨h'.value.trans h.value, h'.origin.trans h.origin, h'.die.trans h.die,
    h'.significance.trans h.significance, ?_, ?_⟩
  · rcases h.status with hs | hs
    · rw [← hs]
      exact h'.status
    · exact .inr hs
  · rcases h.mark with hm | hm
    · rw [← hm]
      exact h'.mark
    · exact .inr hm

theorem mono (h : e.Evolves counted e') (hc : counted → counted') : e.Evolves counted' e' := by
  refine ⟨h.value, h.origin, h.die, h.significance, h.status, ?_⟩
  rcases h.mark with hm | ⟨hm, hcounted⟩
  · exact .inl hm
  · exact .inr ⟨hm, hc hcounted⟩

theorem of_status (counted : Prop) {status : Status} (h : status = e.status ∨ e.status = .kept) :
    e.Evolves counted { e with status := status } :=
  ⟨rfl, rfl, rfl, rfl, h, .inl rfl⟩

end Event.Evolves

theorem Event.isKept_iff {e : Event} : e.isKept = true ↔ e.status = .kept := by
  simp [isKept]

theorem Event.Evolves.isKeptDie {counted : Prop} {e e' : Event} (h : e.Evolves counted e')
    (hk : e'.isKeptDie = true) : e.isKeptDie = true := by
  simp only [Event.isKeptDie, Bool.and_eq_true, Event.isKept_iff] at hk ⊢
  refine ⟨?_, by rw [Event.isDie, ← h.die]; exact hk.2⟩
  rcases h.status with hs | hs
  · rw [← hs]
    exact hk.1
  · exact hs

/-- A die in play that is not dropped is kept, so it may be discarded. -/
theorem Event.evolves_discard (counted : Prop) {e : Event} (hd : e.isDropped = false) :
    e.Evolves counted e.discard := by
  refine .of_status counted ?_
  cases hs : e.status with
  | kept => exact .inr rfl
  | dropped => simp [isDropped, hs] at hd
  | discarded => exact .inl rfl

/-- Constants and counts of dice, which are no dice themselves. -/
def Event.IsSummary (e : Event) : Prop :=
  e.isConstant = true ∨ e.isTally = true

theorem Event.IsSummary.isDie {e : Event} (h : e.IsSummary) : e.isDie = false := by
  rcases h with h | h
  · simp only [Event.isConstant, decide_eq_true_eq] at h
    simp only [Event.isDie, h]
    rfl
  · simp only [Event.isTally, decide_eq_true_eq] at h
    simp only [Event.isDie, h]
    rfl

theorem Event.not_isSummary_of_isDie {e : Event} (h : e.isDie = true) : ¬ e.IsSummary := by
  intro hs
  rw [hs.isDie] at h
  cases h

theorem Event.Evolves.isSummary {counted : Prop} {e e' : Event} (h : e.Evolves counted e')
    (hs : e.IsSummary) : e'.IsSummary := by
  simpa only [Event.IsSummary, Event.isConstant, Event.isTally, h.die] using hs

namespace Evaluation

open Draws (Returns)

/-! ## Lists of events -/

/-- Events that have come in behind the others may be anything. -/
def Follows (pool : List Bool) (before after : List Event) : Prop :=
  ∀ (i : Nat) (e : Event), before[i]? = some e →
    ∃ e', after[i]? = some e' ∧ e.Evolves (pool[i]? = some true) e'

variable {pool pool' : List Bool} {before mid after events : List Event}

theorem Follows.refl (pool : List Bool) (events : List Event) : Follows pool events events :=
  fun _ e he => ⟨e, he, .refl _ e⟩

theorem Follows.trans (h : Follows pool before mid) (h' : Follows pool mid after) :
    Follows pool before after := by
  intro i e he
  obtain ⟨e', he', hevolves⟩ := h i e he
  obtain ⟨e'', he'', hevolves'⟩ := h' i e' he'
  exact ⟨e'', he'', hevolves.trans hevolves'⟩

theorem Follows.mono (h : Follows pool before after)
    (hp : ∀ i : Nat, pool[i]? = some true → pool'[i]? = some true) :
    Follows pool' before after := by
  intro i e he
  obtain ⟨e', he', hevolves⟩ := h i e he
  exact ⟨e', he', hevolves.mono (hp i)⟩

theorem Follows.append (h : Follows pool before after) (new : List Event) :
    Follows pool before (after ++ new) := by
  intro i e he
  obtain ⟨e', he', hevolves⟩ := h i e he
  obtain ⟨hi, _⟩ := List.getElem?_eq_some_iff.mp he'
  exact ⟨e', by rw [List.getElem?_append_left hi, he'], hevolves⟩

theorem Follows.of_map {f : Nat → Event → Event} (hf : ∀ i : Nat, after[i]? = before[i]?.map (f i))
    (h : ∀ (i : Nat) (e : Event), before[i]? = some e → e.Evolves (pool[i]? = some true) (f i e)) :
    Follows pool before after := by
  intro i e he
  exact ⟨f i e, by rw [hf, he]; rfl, h i e he⟩

/-! ## The first phase -/

theorem follows_of_spent (pool : List Bool) (h : List.Forall₂ Spent before after)
    (hd : ∀ e ∈ before, e.isDropped = false) : Follows pool before after := by
  intro i e he
  obtain ⟨hi, rfl⟩ := List.getElem?_eq_some_iff.mp he
  have hi' : i < after.length := h.length_eq ▸ hi
  refine ⟨after[i], List.getElem?_eq_getElem hi', ?_⟩
  rcases h.get hi hi' with hsame | ⟨_, hdiscard⟩
  · have hsame : after[i] = before[i] := hsame
    rw [hsame]
    exact .refl _ _
  · have hdiscard : after[i] = before[i].discard := hdiscard
    rw [hdiscard]
    exact Event.evolves_discard _ (hd _ (List.getElem_mem hi))

theorem follows_generation {limits : Limits} {m : Modifier} (hm : m.phase = .generation)
    {answers : List Int} (h : Returns (applyModifier limits m pool before) answers after)
    (hd : ∀ e ∈ before, e.isDropped = false) :
    Follows pool before after ∧ ∀ e ∈ after, e.isDropped = false := by
  obtain ⟨old, new, rfl, hold, hnew⟩ := returns_generation hm h
  refine ⟨(follows_of_spent pool hold hd).append new, ?_⟩
  refine List.forall_mem_append.mpr ⟨?_, fun x hx => (hnew x hx).isDropped⟩
  exact forall_of_spent (fun _ _ => rfl) hold hd

/-! ## Selection -/

theorem getElem?_dropPlaces (dropped : List Nat) (events : List Event) (i : Nat) :
    (dropPlaces dropped events)[i]? =
      events[i]?.map fun e => if dropped.contains i then e.dropped else e := by
  simp [dropPlaces, List.getElem?_zipIdx, Function.comp_def]

/-- Only dice that count are ranked. -/
theorem isKeptDie_of_mem_ranking {highest : Bool} {i : Nat} (h : i ∈ ranking highest events) :
    ∃ e, events[i]? = some e ∧ e.isKeptDie = true := by
  obtain ⟨⟨e, _⟩, hmem, rfl⟩ := List.mem_map.mp h
  obtain ⟨hplace, hkept⟩ := List.mem_filter.mp (List.mem_mergeSort.mp hmem)
  exact ⟨e, List.mem_zipIdx_iff_getElem?.mp hplace, hkept⟩

theorem follows_dropPlaces (pool : List Bool) {dropped : List Nat}
    (h : ∀ i ∈ dropped, ∃ e, events[i]? = some e ∧ e.isKeptDie = true) :
    Follows pool events (dropPlaces dropped events) := by
  refine .of_map (getElem?_dropPlaces dropped events) ?_
  intro i e he
  split
  · rename_i hi
    obtain ⟨e', he', hkept⟩ := h i (by simpa using hi)
    rw [he] at he'
    cases he'
    simp only [Event.isKeptDie, Bool.and_eq_true] at hkept
    exact .of_status _ (.inr (Event.isKept_iff.mp hkept.1))
  · exact .refl _ _

theorem length_dropPlaces (dropped : List Nat) (events : List Event) :
    (dropPlaces dropped events).length = events.length := by
  simp [dropPlaces]

/-! ## Counting -/

theorem getElem?_markHits (m : Mark) (found : List Bool) (events : List Event) (i : Nat) :
    (markHits m found events)[i]? =
      events[i]?.map fun e => if found[i]? = some true then { e with mark := m } else e := by
  induction events generalizing found i with
  | nil => cases found <;> simp [markHits]
  | cons e events ih =>
    cases found with
    | nil => simp [markHits]
    | cons hit found =>
      cases i with
      | zero => cases hit <;> simp [markHits]
      | succ i => simpa [markHits] using ih found i

theorem hits_cons {p : Point} {inPool : Bool} {e : Event} {found : List Bool}
    (h : hits p (inPool :: pool) (e :: events) = .ok found) :
    ∃ hit rest, found = hit :: rest ∧ hits p pool events = .ok rest ∧
      (hit = true → inPool = true ∧ e.mark = .neutral) := by
  have hrest {hit : Bool} (h : (hits p pool events).map (hit :: ·) = .ok found) :
      ∃ rest, found = hit :: rest ∧ hits p pool events = .ok rest := by
    cases hr : hits p pool events with
    | error err => rw [hr] at h; cases h
    | ok rest => rw [hr] at h; cases h; exact ⟨rest, rfl, rfl⟩
  rw [hits] at h
  split at h
  · rename_i hcounted
    split at h
    · cases h
    · rename_i hit _
      obtain ⟨rest, hfound, hrest⟩ := hrest h
      exact ⟨hit, rest, hfound, hrest, fun _ => by simpa using hcounted⟩
  · obtain ⟨rest, hfound, hrest⟩ := hrest h
    exact ⟨false, rest, hfound, hrest, fun hfalse => (by cases hfalse)⟩

theorem neutral_of_hits {p : Point} {found : List Bool} (h : hits p pool events = .ok found)
    {i : Nat} (hi : found[i]? = some true) {e : Event} (he : events[i]? = some e) :
    e.mark = .neutral ∧ pool[i]? = some true := by
  induction pool generalizing events found i with
  | nil =>
    rw [hits] at h
    · cases h
      cases hi
    · simp
  | cons inPool pool ih =>
    cases events with
    | nil => cases he
    | cons head events =>
      obtain ⟨hit, rest, rfl, hrest, hcounted⟩ := hits_cons h
      cases i with
      | zero =>
        cases he
        cases hi
        obtain ⟨rfl, hneutral⟩ := hcounted rfl
        exact ⟨hneutral, rfl⟩
      | succ i => exact ih hrest hi he

theorem follows_markHits (m : Mark) {p : Point} {found : List Bool}
    (h : hits p pool events = .ok found) : Follows pool events (markHits m found events) := by
  refine .of_map (getElem?_markHits m found events) ?_
  intro i e he
  split
  · rename_i hi
    exact ⟨rfl, rfl, rfl, rfl, .inl rfl, .inr (neutral_of_hits h hi he)⟩
  · exact .refl _ _

theorem evolves_collapse (counted : Prop) (e : Event) : e.Evolves counted (collapse e) := by
  unfold collapse
  split
  · rename_i h
    simp only [Bool.and_eq_true] at h
    exact .of_status _ (.inr (Event.isKept_iff.mp h.1))
  · exact .refl _ _

theorem follows_collapse (pool : List Bool) (events : List Event) :
    Follows pool events (events.map collapse) :=
  .of_map (f := fun _ => collapse) (fun i => by simp) fun _ e _ => evolves_collapse _ e

theorem length_markHits (m : Mark) (found : List Bool) (events : List Event) :
    (markHits m found events).length = events.length := by
  induction found generalizing events with
  | nil => simp [markHits]
  | cons hit found ih => cases events <;> simp [markHits, ih]

/-! ## All phases but the first -/

/-- The events before stay in front, and no dice come in behind them. -/
def Concludes (pool : List Bool) (before after : List Event) : Prop :=
  ∃ old new, after = old ++ new ∧ old.length = before.length ∧ Follows pool before old ∧
    ∀ x ∈ new, x.IsSummary

theorem Concludes.refl (pool : List Bool) (events : List Event) : Concludes pool events events :=
  ⟨events, [], (List.append_nil _).symm, rfl, .refl pool events, by simp⟩

theorem Concludes.follows (h : Concludes pool before after) : Follows pool before after := by
  obtain ⟨old, new, rfl, _, hold, _⟩ := h
  exact hold.append new

theorem Concludes.mono (h : Concludes pool before after)
    (hp : ∀ i : Nat, pool[i]? = some true → pool'[i]? = some true) :
    Concludes pool' before after := by
  obtain ⟨old, new, hafter, hlen, hold, hnew⟩ := h
  exact ⟨old, new, hafter, hlen, hold.mono hp, hnew⟩

theorem Concludes.trans (h : Concludes pool before mid)
    (h' : Concludes pool mid after) : Concludes pool before after := by
  obtain ⟨old, new, rfl, hlen, hold, hnew⟩ := h
  obtain ⟨old', new', rfl, hlen', hold', hnew'⟩ := h'
  -- what came in first has evolved too
  have hsplit : old' = old'.take before.length ++ old'.drop before.length := by simp
  have hle : before.length ≤ old'.length := by
    rw [hlen', List.length_append, hlen]
    exact Nat.le_add_right _ _
  refine ⟨old'.take before.length, old'.drop before.length ++ new', ?_, ?_, ?_, ?_⟩
  · rw [← List.append_assoc, ← hsplit]
  · rw [List.length_take, Nat.min_eq_left hle]
  · intro i e he
    obtain ⟨hi, _⟩ := List.getElem?_eq_some_iff.mp he
    obtain ⟨e', he', hevolves⟩ := ((hold.append new).trans hold') i e he
    exact ⟨e', by rw [List.getElem?_take_of_lt hi, he'], hevolves⟩
  · refine List.forall_mem_append.mpr ⟨?_, hnew'⟩
    intro x hx
    obtain ⟨i, hi⟩ := List.mem_iff_getElem?.mp hx
    rw [List.getElem?_drop] at hi
    obtain ⟨hlt, _⟩ := List.getElem?_eq_some_iff.mp hi
    have hlt' : before.length + i < (old ++ new).length := hlen' ▸ hlt
    obtain ⟨x', hx', hevolves⟩ := hold' _ _ (List.getElem?_eq_getElem hlt')
    rw [hi] at hx'
    cases hx'
    refine hevolves.isSummary (hnew _ ?_)
    have hge : old.length ≤ before.length + i := hlen ▸ Nat.le_add_right _ _
    rw [List.getElem_append_right hge]
    exact List.getElem_mem _

theorem concludes_dropPlaces (pool : List Bool) {dropped : List Nat}
    (h : ∀ i ∈ dropped, ∃ e, events[i]? = some e ∧ e.isKeptDie = true) :
    Concludes pool events (dropPlaces dropped events) :=
  ⟨_, [], (List.append_nil _).symm, length_dropPlaces dropped events, follows_dropPlaces pool h,
    by simp⟩

theorem concludes_count {m : Mark} {p : Point} (h : count m p pool before = .ok after) :
    Concludes pool before after := by
  unfold count at h
  cases hh : hits p pool before with
  | error e => rw [hh] at h; cases h
  | ok found =>
    rw [hh] at h
    cases h
    refine ⟨_, _, rfl, ?_, (follows_markHits m hh).trans (follows_collapse pool _), ?_⟩
    · rw [List.length_map, length_markHits]
    · simp [Event.IsSummary, tally, Event.summary, Event.isTally]

theorem concludes_adjust (pool : List Bool) (amount : Int) (events : List Event) :
    Concludes pool events (adjust amount events) := by
  refine ⟨events, _, rfl, rfl, .refl pool events, ?_⟩
  simp [Event.IsSummary, Event.summary, Event.isConstant]

theorem returns_late {limits : Limits} {m : Modifier} (hm : m.phase ≠ .generation)
    {answers : List Int} (h : Returns (applyModifier limits m pool before) answers after) :
    Concludes pool before after := by
  cases (returns_reckoning hm h).2 with
  | drops hd => exact concludes_dropPlaces pool fun i hi => isKeptDie_of_mem_ranking (hd hi)
  | counts hc => exact concludes_count hc
  | adds amount => exact concludes_adjust pool amount before

end Evaluation

end Dice
