import Mathlib.Data.List.DropRight
import Dice.Proofs.Evaluation.LifeCycle
import Dice.Proofs.Evaluation.Phases
import Dice.Proofs.Evaluation.Replay

/-!
# Dice.Proofs.Evaluation.Finalization

What the last phase makes of the dice that are left when it begins.

* `poolThrough`, `evaluatePool_through` : a pool after the modifiers of the first phases, and what
  follows.
* `Count`, `firstMark`, `settled` : a count of dice, and what counts make of a die.
* `tallies`, `amounts`, `behindCounts` : what the last phase adds.
* `Settled` : the events after some modifiers of the last phase.
* `Settled.step`, `Settled.run` : so it is after one more of them, and after all.
* `total_tallies` : the counts come to the successes less the failures.
* `value_of_finalization` : the value, the events that count, and the marks of the dice.
-/

namespace Dice

/-- Dice that meet a condition are counted as successes, or else as failures. -/
structure Count where
  success : Bool
  point : Point

def Count.mark (c : Count) : Mark :=
  if c.success then .success else .failure

theorem Count.mark_ne_neutral (c : Count) : c.mark ≠ .neutral := by
  unfold mark
  split <;> nofun

def Modifier.count? : Modifier → Option Count
  | .onMatch .success point => some ⟨true, point⟩
  | .onMatch .failure point => some ⟨false, point⟩
  | _ => none

/-- A die that is neither a success nor a failure yet. -/
structure Event.Unmarked (e : Event) : Prop where
  isDie : e.isDie = true
  mark : e.mark = .neutral

namespace Evaluation

open Draws (Returns)

/-! ## The dice when the last phase begins -/

/-- The events of a pool when all modifiers of the phases up to the given one are applied. -/
def poolThrough (limits : Limits) (count : Int) (die : Node) (p : Phase)
    (modifiers : List Modifier) : Draws (List Event) :=
  match poolDie? die with
  | none => .fail (.unknownDie die)
  | some d =>
    (drawPool d count.toNat []).bind
      (applyAll limits ((phased modifiers).filter (·.phase.number ≤ p.number)) none)

theorem filter_through {p q : Phase} (h : q.number ≤ p.number) (modifiers : List Modifier) :
    (modifiers.filter (·.phase = q)).filter (·.phase.number ≤ p.number) =
      modifiers.filter (·.phase = q) := by
  rw [List.filter_eq_self]
  intro m hm
  simpa [of_decide_eq_true (List.mem_filter.mp hm).2] using h

theorem filter_beyond {p q : Phase} (h : p.number < q.number) (modifiers : List Modifier) :
    (modifiers.filter (·.phase = q)).filter (·.phase.number ≤ p.number) = [] := by
  rw [List.filter_eq_nil_iff]
  intro m hm
  simpa [of_decide_eq_true (List.mem_filter.mp hm).2] using h

theorem phased_selection (modifiers : List Modifier) :
    phased modifiers =
      (phased modifiers).filter (·.phase.number ≤ Phase.selection.number) ++
        modifiers.filter (·.phase = .finalization) := by
  rw [phased_eq]
  simp only [List.filter_append, filter_through (p := .selection) (q := .none) (by decide),
    filter_through (p := .selection) (q := .generation) (by decide),
    filter_through (p := .selection) (q := .selection) (by decide),
    filter_beyond (p := .selection) (q := .finalization) (by decide), List.append_assoc,
    List.nil_append]

/-- The modifiers of the phases up to any but the last one come first. -/
theorem evaluatePool_through {p : Phase} (hp : p.number < Phase.finalization.number)
    (limits : Limits) (count : Int) (die : Node) {modifiers later : List Modifier}
    (h : phased modifiers = (phased modifiers).filter (·.phase.number ≤ p.number) ++ later) :
    evaluatePool limits count die (modifiers.map .modifier) =
      (poolThrough limits count die p modifiers).bind fun events =>
        (applyAll limits later none events).bind fun events => .done ⟨keptSum events, events⟩ := by
  have hfirst : ∀ m ∈ (phased modifiers).filter (·.phase.number ≤ p.number),
      m.phase ≠ .finalization := by
    intro m hm hphase
    have hle := of_decide_eq_true (List.mem_filter.mp hm).2
    rw [hphase] at hle
    exact absurd hp (Nat.not_lt.mpr hle)
  have hsplit := applyAll_append limits hfirst later none
  rw [← h] at hsplit
  rw [evaluatePool_map, poolThrough]
  cases poolDie? die with
  | none => rfl
  | some d => simp only [hsplit, Draws.bind_assoc]

theorem evaluatePool_poolThrough (limits : Limits) (count : Int) (die : Node)
    (modifiers : List Modifier) :
    evaluatePool limits count die (modifiers.map .modifier) =
      (poolThrough limits count die .selection modifiers).bind fun events =>
        (applyAll limits (modifiers.filter (·.phase = .finalization)) none events).bind
          fun events => .done ⟨keptSum events, events⟩ :=
  evaluatePool_through (by decide) limits count die (phased_selection modifiers)

/-! ## Counts -/

/-- The mark of a die that shows a value: the first count that it meets sets it. -/
def firstMark (counts : List Count) (value : Int) : Mark :=
  match counts.find? (·.point.meets value) with
  | some c => c.mark
  | none => .neutral

theorem firstMark_nil (value : Int) : firstMark [] value = .neutral := rfl

theorem firstMark_cons (c : Count) (counts : List Count) (value : Int) :
    firstMark (c :: counts) value =
      if c.point.meets value then c.mark else firstMark counts value := by
  cases h : c.point.meets value <;> simp [firstMark, h]

theorem firstMark_append (counts : List Count) (c : Count) (value : Int) :
    firstMark (counts ++ [c]) value =
      if firstMark counts value = .neutral ∧ c.point.meets value = true then c.mark
      else firstMark counts value := by
  induction counts with
  | nil => simp [firstMark_cons, firstMark_nil]
  | cons c' counts ih =>
    rw [List.cons_append, firstMark_cons, firstMark_cons, ih]
    by_cases h : c'.point.meets value = true
    · simp [h, c'.mark_ne_neutral]
    · simp [h]

/-- Each count tells how many of the dice it is the first to be met by. -/
def tallies : List Count → List Int → List Event
  | [], _ => []
  | c :: counts, values =>
    tally c.mark (values.countP c.point.meets) ::
      tallies counts (values.filter (!c.point.meets ·))

theorem tallies_append (counts : List Count) (c : Count) (values : List Int) :
    tallies (counts ++ [c]) values = tallies counts values ++
      [tally c.mark (values.countP fun v => firstMark counts v = .neutral && c.point.meets v)] := by
  induction counts generalizing values with
  | nil => simp [tallies, firstMark_nil]
  | cons c' counts ih =>
    have hcount : (values.filter (!c'.point.meets ·)).countP
        (fun v => firstMark counts v = .neutral && c.point.meets v) =
        values.countP fun v => firstMark (c' :: counts) v = .neutral && c.point.meets v := by
      rw [List.countP_filter]
      refine List.countP_congr fun v _ => ?_
      rw [firstMark_cons]
      cases h : c'.point.meets v <;> simp [c'.mark_ne_neutral]
    rw [List.cons_append, tallies, tallies, ih, hcount, List.cons_append]

theorem isTally_of_mem_tallies {counts : List Count} {values : List Int} {x : Event}
    (h : x ∈ tallies counts values) : x.isTally = true := by
  induction counts generalizing values with
  | nil => cases h
  | cons c counts ih =>
    rw [tallies, List.mem_cons] at h
    rcases h with rfl | h
    · rfl
    · exact ih h

/-- Together the counts come to the successes less the failures. -/
theorem total_tallies (counts : List Count) (values : List Int) :
    Event.total (tallies counts values) =
      (values.countP (firstMark counts · = .success) : Int) -
        values.countP (firstMark counts · = .failure) := by
  induction counts generalizing values with
  | nil => simp [tallies, Event.total, firstMark_nil]
  | cons c counts ih =>
    have hsplit (mark : Mark) : values.countP (firstMark (c :: counts) · = mark) =
        (if c.mark = mark then values.countP c.point.meets else 0) +
          (values.filter (!c.point.meets ·)).countP (firstMark counts · = mark) := by
      rw [List.countP_eq_countP_filter_add _ _ c.point.meets]
      congr 1
      · rw [List.countP_filter]
        by_cases hm : c.mark = mark
        · rw [if_pos hm]
          refine List.countP_congr fun v _ => ?_
          cases h : c.point.meets v <;> simp [firstMark_cons, h, hm]
        · rw [if_neg hm, List.countP_eq_zero]
          intro v _
          cases h : c.point.meets v <;> simp [firstMark_cons, h, hm]
      · refine List.countP_congr fun v hv => ?_
        have hmeets : c.point.meets v = false := by simpa using (List.mem_filter.mp hv).2
        simp [firstMark_cons, hmeets]
    rw [tallies, Event.total, ih, hsplit, hsplit]
    cases hc : c.success <;> simp [Count.mark, hc, tally, Event.summary] <;> omega

/-- The amounts that constants add. -/
def amounts (modifiers : List Modifier) : List Int :=
  modifiers.filterMap Modifier.signed?

theorem amounts_append (first rest : List Modifier) :
    amounts (first ++ rest) = amounts first ++ amounts rest :=
  List.filterMap_append

/-- The modifiers behind the last one that counts dice. -/
def behindCounts (modifiers : List Modifier) : List Modifier :=
  modifiers.rtakeWhile (·.count?.isNone)

/-! ## Dice -/

/-- What counts make of a die that counts. -/
def settled (counts : List Count) (e : Event) : Event :=
  if e.isKeptDie && !counts.isEmpty then
    { e with mark := firstMark counts e.value, status := .discarded }
  else e

theorem settled_nil (e : Event) : settled [] e = e := by
  simp [settled]

theorem settled_value (counts : List Count) (e : Event) : (settled counts e).value = e.value := by
  unfold settled
  split <;> rfl

variable {e : Event} {selected : List Event}

theorem settled_mark (h : e.Unmarked) (counts : List Count) :
    (settled counts e).mark = if e.isKeptDie then firstMark counts e.value else .neutral := by
  cases counts with
  | nil => simp [settled_nil, firstMark_nil, h.mark]
  | cons c counts => cases hk : e.isKeptDie <;> simp [settled, hk, h.mark]

theorem settled_kept (hk : e.isKeptDie = true) {counts : List Count} (hc : counts ≠ []) :
    settled counts e = { e with mark := firstMark counts e.value, status := .discarded } := by
  simp [settled, hk, hc]

/-- A die that counts is no count of dice itself. -/
theorem collapse_of_isKeptDie (hk : e.isKeptDie = true) : collapse e = e.discard := by
  simp only [Event.isKeptDie, Bool.and_eq_true] at hk
  have htally : e.isTally = false :=
    Bool.eq_false_iff.mpr fun ht => Event.not_isSummary_of_isDie hk.2 (.inr ht)
  simp [collapse, hk.1, htally]

theorem collapse_of_not_kept (h : e.isKept = false) : collapse e = e := by
  simp [collapse, h]

/-- One more count marks those dice that it meets and that are not marked yet. -/
theorem collapse_settled (h : e.Unmarked) (counts : List Count) (c : Count) :
    collapse (if e.isKeptDie && decide ((settled counts e).mark = .neutral) &&
        c.point.meets (settled counts e).value then { settled counts e with mark := c.mark }
      else settled counts e) = settled (counts ++ [c]) e := by
  rw [settled_value]
  cases hk : e.isKeptDie with
  | false =>
    have hkept : e.isKept = false := by simpa [Event.isKeptDie, h.isDie] using hk
    simp [settled, hk, collapse_of_not_kept hkept]
  | true =>
    have hne : counts ++ [c] ≠ [] := by simp
    rw [settled_mark h, settled_kept hk hne, firstMark_append, hk]
    cases counts with
    | nil =>
      rw [settled_nil, firstMark_nil]
      cases hm : c.point.meets e.value with
      | true =>
        have hk' : ({ e with mark := c.mark } : Event).isKeptDie = true := hk
        simp [collapse_of_isKeptDie hk', Event.discard]
      | false => simp [collapse_of_isKeptDie hk, Event.discard, h.mark]
    | cons c' counts =>
      rw [settled_kept hk (by simp)]
      by_cases hm : firstMark (c' :: counts) e.value = .neutral ∧ c.point.meets e.value = true
      · rw [if_pos hm, if_pos (by simpa using hm), collapse_of_not_kept rfl]
      · rw [if_neg hm, if_neg (by simpa using hm), collapse_of_not_kept rfl]

/-- The values of the dice that count. -/
def shown (events : List Event) : List Int :=
  (events.filter Event.isKeptDie).map Event.value

theorem hits_eq_map {p : Point} {g : Event → Event} {added : List Event} {found : List Bool}
    (h : hits p (poolOf selected) (selected.map g ++ added) = .ok found) :
    found = selected.map fun e =>
      e.isKeptDie && decide ((g e).mark = .neutral) && p.meets (g e).value := by
  induction selected generalizing found with
  | nil =>
    simp only [poolOf, List.map_nil, hits] at h
    cases h
    rfl
  | cons e selected ih =>
    have hrest {hit : Bool}
        (h : (hits p (poolOf selected) (selected.map g ++ added)).map (hit :: ·) = .ok found) :
        found = hit :: selected.map fun e =>
          e.isKeptDie && decide ((g e).mark = .neutral) && p.meets (g e).value := by
      cases hr : hits p (poolOf selected) (selected.map g ++ added) with
      | error err => rw [hr] at h; cases h
      | ok rest => rw [hr] at h; cases h; rw [ih hr]
    simp only [poolOf, List.map_cons, List.cons_append, hits] at h
    rw [List.map_cons]
    split at h
    · rename_i hasked
      split at h
      · cases h
      · rename_i hit hhit
        rw [hrest h, hasked]
        simp [Point.meets, hhit]
    · rename_i hasked
      rw [hrest h, eq_false_of_ne_true hasked, Bool.false_and]

theorem markHits_map (m : Mark) (b : Event → Bool) (g : Event → Event) (selected added : List Event) :
    markHits m (selected.map b) (selected.map g ++ added) =
      (selected.map fun e => if b e then { g e with mark := m } else g e) ++ added := by
  induction selected with
  | nil => simp [markHits]
  | cons e selected ih => simp only [List.map_cons, List.cons_append, markHits, ih]

/-- A count marks dice, has all else replaced, and puts their number behind it. -/
theorem count_settled (hs : ∀ e ∈ selected, e.Unmarked) {counts : List Count} {c : Count}
    {added after : List Event}
    (h : count c.mark c.point (poolOf selected) (selected.map (settled counts) ++ added) =
      .ok after) :
    after = selected.map (settled (counts ++ [c])) ++ (added.map collapse ++
      [tally c.mark ((shown selected).countP fun v =>
        firstMark counts v = .neutral && c.point.meets v)]) := by
  unfold count at h
  cases hh : hits c.point (poolOf selected) (selected.map (settled counts) ++ added) with
  | error err => rw [hh] at h; cases h
  | ok found =>
    rw [hh] at h
    have hafter : (markHits c.mark found (selected.map (settled counts) ++ added)).map collapse ++
        [tally c.mark (found.count true)] = after := Except.ok.inj h
    rw [hits_eq_map hh, markHits_map, List.map_append, List.map_map, List.append_assoc] at hafter
    have hdice : selected.map (collapse ∘ fun e => if e.isKeptDie &&
        decide ((settled counts e).mark = .neutral) && c.point.meets (settled counts e).value then
          { settled counts e with mark := c.mark } else settled counts e) =
        selected.map (settled (counts ++ [c])) := by
      exact List.map_congr_left fun e he => collapse_settled (hs e he) counts c
    have hnumber : (selected.map fun e => e.isKeptDie &&
        decide ((settled counts e).mark = .neutral) &&
          c.point.meets (settled counts e).value).count true =
        (shown selected).countP fun v => firstMark counts v = .neutral && c.point.meets v := by
      rw [List.count, List.countP_map, shown, List.countP_map, List.countP_filter]
      refine List.countP_congr fun e he => ?_
      simp only [Function.comp_apply, settled_value, settled_mark (hs e he)]
      cases e.isKeptDie <;> simp
    rw [← hafter, hdice, hnumber]

/-! ## One modifier after another -/

def countsOf (modifiers : List Modifier) : List Count :=
  modifiers.filterMap Modifier.count?

/-- What some modifiers of the last phase have added: the counts stand, and the constants behind
them. -/
structure Adds (selected : List Event) (done : List Modifier) (added : List Event) : Prop where
  summaries : ∀ x ∈ added, x.IsSummary ∧ x.mark = .neutral
  kept : added.filter Event.isKept = tallies (countsOf done) (shown selected) ++
    (amounts (behindCounts done)).map (.summary .constant)
  tallied : added.filter Event.isTally = tallies (countsOf done) (shown selected)

/-- The dice in their places, and what was added behind them. -/
def Settled (selected : List Event) (done : List Modifier) (events : List Event) : Prop :=
  ∃ added, Adds selected done added ∧ events = selected.map (settled (countsOf done)) ++ added

theorem settled_start (selected : List Event) : Settled selected [] selected := by
  refine ⟨[], ⟨by simp, rfl, rfl⟩, ?_⟩
  rw [countsOf, List.filterMap_nil, funext settled_nil, List.map_id'', List.append_nil]
  exact fun _ => rfl

/-- Of all that was added only the counts are left by another count. -/
theorem filter_isKept_collapse (events : List Event) :
    (events.map collapse).filter Event.isKept =
      (events.filter Event.isKept).filter Event.isTally := by
  induction events with
  | nil => rfl
  | cons e events ih =>
    rw [List.map_cons, List.filter_cons, List.filter_cons, ih]
    cases hk : e.isKept <;> cases ht : e.isTally <;> simp [collapse, hk, ht]

theorem filter_isTally_collapse (events : List Event) :
    (events.map collapse).filter Event.isTally = events.filter Event.isTally := by
  induction events with
  | nil => rfl
  | cons e events ih =>
    rw [List.map_cons, List.filter_cons, List.filter_cons, ih]
    have hsame : e.discard.isTally = e.isTally := rfl
    cases hk : e.isKept <;> cases ht : e.isTally <;> simp [collapse, hk, ht, hsame]

variable {done : List Modifier} {added events after : List Event}

theorem countsOf_append (done : List Modifier) (m : Modifier) :
    countsOf (done ++ [m]) = countsOf done ++ m.count?.toList := by
  rw [countsOf, List.filterMap_append]
  cases hm : m.count? <;> simp [countsOf, hm]

theorem filter_isTally_tallies (counts : List Count) (values : List Int) :
    (tallies counts values).filter Event.isTally = tallies counts values :=
  List.filter_eq_self.mpr fun _ hx => isTally_of_mem_tallies hx

theorem filter_isTally_constants (values : List Int) :
    (values.map (Event.summary .constant)).filter Event.isTally = [] := by
  rw [List.filter_eq_nil_iff]
  intro x hx
  obtain ⟨value, _, rfl⟩ := List.mem_map.mp hx
  exact Bool.false_ne_true

theorem Adds.count (h : Adds selected done added) {m : Modifier} {c : Count}
    (hm : m.count? = some c) :
    Adds selected (done ++ [m]) (added.map collapse ++
      [tally c.mark ((shown selected).countP fun v =>
        firstMark (countsOf done) v = .neutral && c.point.meets v)]) := by
  have hcounts : countsOf (done ++ [m]) = countsOf done ++ [c] := by
    rw [countsOf_append, hm]
    rfl
  have hbehind : behindCounts (done ++ [m]) = [] :=
    List.rtakeWhile_concat_neg _ _ _ (by simp [hm])
  refine ⟨List.forall_mem_append.mpr ⟨?_, ?_⟩, ?_, ?_⟩
  · intro x hx
    obtain ⟨y, hy, rfl⟩ := List.mem_map.mp hx
    obtain ⟨hsummary, hmark⟩ := h.summaries y hy
    refine ⟨(evolves_collapse True y).isSummary hsummary, ?_⟩
    unfold collapse
    split <;> exact hmark
  · exact List.forall_mem_singleton.mpr ⟨.inr rfl, rfl⟩
  · rw [List.filter_append, filter_isKept_collapse, h.kept, List.filter_append,
      filter_isTally_tallies, filter_isTally_constants, hcounts, tallies_append, hbehind]
    simp [amounts, tally, Event.summary, Event.isKept]
  · rw [List.filter_append, filter_isTally_collapse, h.tallied, hcounts, tallies_append]
    rfl

theorem Adds.adjust (h : Adds selected done added) (sign : Sign) (value : Int) :
    Adds selected (done ++ [.adjust (.known sign) value])
      (added ++ [.summary .constant (sign.apply value)]) := by
  have hcounts : countsOf (done ++ [.adjust (.known sign) value]) = countsOf done := by
    rw [countsOf_append]
    exact List.append_nil _
  have hbehind : behindCounts (done ++ [.adjust (.known sign) value]) =
      behindCounts done ++ [.adjust (.known sign) value] :=
    List.rtakeWhile_concat_pos _ _ _ rfl
  refine ⟨List.forall_mem_append.mpr ⟨h.summaries, ?_⟩, ?_, ?_⟩
  · exact List.forall_mem_singleton.mpr ⟨.inl rfl, rfl⟩
  · rw [List.filter_append, h.kept, hcounts, hbehind, amounts_append, List.map_append,
      List.append_assoc]
    rfl
  · rw [List.filter_append, h.tallied, hcounts]
    exact List.append_nil _

theorem Settled.step {limits : Limits} (hs : ∀ e ∈ selected, e.Unmarked)
    (h : Settled selected done events) {m : Modifier} (hm : m.phase = .finalization)
    {answers : List Int}
    (hr : Returns (applyModifier limits m (poolOf selected) events) answers after) :
    Settled selected (done ++ [m]) after := by
  obtain ⟨added, hadds, rfl⟩ := h
  have hcount {c : Count} (hc : m.count? = some c)
      (hr : Returns (.ofExcept .unknownRelation (Evaluation.count c.mark c.point (poolOf selected)
        (selected.map (settled (countsOf done)) ++ added))) answers after) :
      Settled selected (done ++ [m]) after := by
    obtain ⟨_, hafter⟩ := Draws.returns_ofExcept_iff.mp hr
    refine ⟨_, hadds.count hc, ?_⟩
    rw [countsOf_append, hc]
    exact count_settled hs hafter
  cases m with
  | onMatch t p =>
    cases t with
    | success => exact hcount (c := ⟨true, p⟩) rfl hr
    | failure => exact hcount (c := ⟨false, p⟩) rfl hr
    | _ => cases hm
  | adjust sign value =>
    cases sign with
    | known sign =>
      obtain ⟨_, rfl⟩ := Draws.returns_done_iff.mp hr
      refine ⟨_, hadds.adjust sign value, ?_⟩
      rw [countsOf_append, Evaluation.adjust, List.append_assoc]
      exact congrArg (fun counts => selected.map (settled counts) ++ _) (List.append_nil _).symm
    | unknown found => exact absurd hr Draws.not_returns_fail
  | _ => cases hm

/-- The pool is fixed by the first of them, before anything is added. -/
theorem Settled.run {limits : Limits} (hs : ∀ e ∈ selected, e.Unmarked)
    {modifiers : List Modifier} (hm : ∀ m ∈ modifiers, m.phase = .finalization)
    (h : Settled selected done events) {pool : Option (List Bool)}
    (hpool : pool.getD (poolOf events) = poolOf selected) {answers : List Int}
    (hr : Returns (applyAll limits modifiers pool events) answers after) :
    Settled selected (done ++ modifiers) after := by
  induction modifiers generalizing done events pool answers with
  | nil =>
    obtain ⟨_, rfl⟩ := Draws.returns_done_iff.mp hr
    rwa [List.append_nil]
  | cons m modifiers ih =>
    obtain ⟨hfirst, hrest⟩ := List.forall_mem_cons.mp hm
    have hat : poolAt m pool events = some (poolOf selected) := by
      rw [poolAt, if_pos hfirst, hpool]
    rw [applyAll_cons, hat] at hr
    obtain ⟨_, mid, _, _, hmid, hlast⟩ := Draws.returns_bind_iff.mp hr
    rw [List.append_cons]
    exact ih hrest (h.step hs hfirst hmid) rfl hlast

/-! ## The dice that are left -/

theorem unmarked_applyModifier {limits : Limits} {m : Modifier} (hm : m.phase ≠ .finalization)
    {pool : List Bool} {answers : List Int}
    (h : Returns (applyModifier limits m pool events) answers after)
    (he : ∀ e ∈ events, e.Unmarked) : ∀ e ∈ after, e.Unmarked := by
  have hdrop {dropped : List Nat} : ∀ e ∈ dropPlaces dropped events, e.Unmarked := by
    intro x hx
    obtain ⟨⟨e, i⟩, hmem, rfl⟩ := List.mem_map.mp hx
    have hsame := he e (List.mem_of_getElem? (List.mem_zipIdx_iff_getElem?.mp hmem))
    split <;> exact ⟨hsame.isDie, hsame.mark⟩
  cases hphase : m.phase with
  | none => exact absurd h (not_returns_none hphase)
  | generation =>
    obtain ⟨old, new, rfl, hold, hnew⟩ := returns_generation hphase h
    refine List.forall_mem_append.mpr ⟨?_, fun x hx => ?_⟩
    · exact forall_of_spent (fun _ h => ⟨h.isDie, h.mark⟩) hold he
    · refine ⟨?_, (hnew x hx).mark⟩
      obtain ⟨d, origin, value, hd, rfl | rfl⟩ := hnew x hx <;> exact isDie_drawn hd origin value
  | selection =>
    cases m with
    | keep => obtain ⟨_, rfl⟩ := Draws.returns_done_iff.mp h; exact hdrop
    | drop => obtain ⟨_, rfl⟩ := Draws.returns_done_iff.mp h; exact hdrop
    | onMatch t => cases t <;> cases hphase
    | _ => cases hphase
  | finalization => exact absurd hphase hm

theorem unmarked_applyAll {limits : Limits} {modifiers : List Modifier}
    (hm : ∀ m ∈ modifiers, m.phase ≠ .finalization) {pool : Option (List Bool)}
    {answers : List Int} (h : Returns (applyAll limits modifiers pool events) answers after)
    (he : ∀ e ∈ events, e.Unmarked) : ∀ e ∈ after, e.Unmarked := by
  induction modifiers generalizing pool events answers with
  | nil =>
    obtain ⟨_, rfl⟩ := Draws.returns_done_iff.mp h
    exact he
  | cons m modifiers ih =>
    obtain ⟨hfirst, hrest⟩ := List.forall_mem_cons.mp hm
    obtain ⟨_, mid, _, _, hmid, hlast⟩ := Draws.returns_bind_iff.mp h
    exact ih hrest hlast (unmarked_applyModifier hfirst hmid he)

theorem unmarked_poolThrough {limits : Limits} {number : Int} {die : Node}
    {modifiers : List Modifier} {answers : List Int}
    (h : Returns (poolThrough limits number die .selection modifiers) answers selected) :
    ∀ e ∈ selected, e.Unmarked := by
  unfold poolThrough at h
  split at h
  · exact absurd h Draws.not_returns_fail
  · rename_i d hd
    obtain ⟨first, drawn, _, _, hdraw, happly⟩ := Draws.returns_bind_iff.mp h
    obtain ⟨rfl, _⟩ := returns_drawPool hdraw
    refine unmarked_applyAll ?_ happly fun e he => ?_
    · intro m hm hphase
      simp [hphase, Phase.number] at hm
    · obtain ⟨value, _, rfl⟩ := List.mem_map.mp he
      exact ⟨isDie_drawn (isSome_range_of_poolDie? hd) _ _, rfl⟩

/-! ## What is left in the end -/

theorem filter_isKept_settled (hs : ∀ e ∈ selected, e.Unmarked) (counts : List Count) :
    (selected.map (settled counts)).filter Event.isKept =
      if counts = [] then selected.filter Event.isKeptDie else [] := by
  have hkept : ∀ e ∈ selected, e.isKept = e.isKeptDie := fun e he => by
    rw [Event.isKeptDie, (hs e he).isDie, Bool.and_true]
  split
  · rename_i hnone
    rw [hnone, funext settled_nil, List.map_id'']
    · exact List.filter_congr hkept
    · exact fun _ => rfl
  · rename_i hsome
    rw [List.filter_eq_nil_iff]
    intro x hx
    obtain ⟨e, he, rfl⟩ := List.mem_map.mp hx
    cases hk : e.isKeptDie with
    | true => simp [settled_kept hk hsome, Event.isKept]
    | false => simp [settled, hk, hkept e he]

theorem filter_isTally_settled (hs : ∀ e ∈ selected, e.Unmarked) (counts : List Count) :
    (selected.map (settled counts)).filter Event.isTally = [] := by
  rw [List.filter_eq_nil_iff]
  intro x hx htally
  obtain ⟨e, he, rfl⟩ := List.mem_map.mp hx
  have hdie : (settled counts e).isDie = e.isDie := by
    unfold settled
    split <;> rfl
  rw [Event.IsSummary.isDie (.inr htally), (hs e he).isDie] at hdie
  cases hdie

/-- Only the dice that count bear a mark. -/
theorem length_marked (hs : ∀ e ∈ selected, e.Unmarked) (hadds : Adds selected done added)
    {mark : Mark} (hmark : mark ≠ .neutral) :
    ((selected.map (settled (countsOf done)) ++ added).filter (·.mark = mark)).length =
      (shown selected).countP (firstMark (countsOf done) · = mark) := by
  have hnone : added.countP (·.mark = mark) = 0 := by
    rw [List.countP_eq_zero]
    intro x hx
    simpa [(hadds.summaries x hx).2] using hmark.symm
  rw [← List.countP_eq_length_filter, List.countP_append, hnone, Nat.add_zero, List.countP_map,
    shown, List.countP_map, List.countP_filter]
  refine List.countP_congr fun e he => ?_
  simp only [Function.comp_apply, settled_mark (hs e he)]
  cases e.isKeptDie <;> simp [hmark.symm]

theorem total_constants (values : List Int) :
    Event.total (values.map (.summary .constant)) = values.sum := by
  rw [total_eq_sum, List.map_map]
  exact congrArg List.sum (List.map_id' values)

/-- Where no dice are counted every modifier stands behind the last count. -/
theorem behindCounts_of_countsOf_eq_nil (h : countsOf done = []) : behindCounts done = done := by
  rw [behindCounts, List.rtakeWhile_eq_self_iff]
  intro m hm
  simpa using List.filterMap_eq_nil_iff.mp h m hm

variable {σ : Type} [RandomSource σ]

/-- The last phase of a pool starts from the dice that the phases before it have left. If no
modifier counts dice, the value is their sum and the constants. Else every one of them bears the
mark of the first count that it meets, and the value is the successes less the failures and the
constants behind the last count; one event for each count and these constants are all that is
kept. -/
theorem value_of_finalization {limits : Limits} {number : Int} {die : Node}
    {modifiers : List Node} {s : σ} {e : Evaluation}
    (h : (((Node.pool number die modifiers).evaluate limits).run s).result = .ok e) :
    ∃ ms selected, modifiersOf modifiers = .ok ms ∧
      ((poolThrough limits number die .selection ms).run s).result = .ok selected ∧
      let last := ms.filter (·.phase = .finalization)
      let counts := countsOf last
      let values := (selected.filter Event.isKeptDie).map Event.value
      (∃ added, e.events = selected.map (settled counts) ++ added ∧ ∀ x ∈ added, x.IsSummary) ∧
      (counts = [] → e.value = values.sum + (amounts last).sum) ∧
      (counts ≠ [] → e.value = e.successes - e.failures + (amounts (behindCounts last)).sum ∧
        e.kept = tallies counts values ++ (amounts (behindCounts last)).map (.summary .constant)) ∧
      e.successes = values.countP (firstMark counts · = .success) ∧
      e.failures = values.countP (firstMark counts · = .failure) ∧
      (e.successes : Int) - e.failures = Event.total (e.events.filter Event.isTally) := by
  rw [Node.evaluate] at h
  obtain ⟨_, ms, _, _, _, hms, _⟩ := returns_evaluatePool (Draws.returns_answersTo h).1
  rw [eq_map_of_modifiersOf hms, evaluatePool_poolThrough, Draws.run_bind] at h
  obtain ⟨selected, hselected, h⟩ := Run.exists_of_andThen_ok h
  have hs := unmarked_poolThrough (Draws.returns_answersTo hselected).1
  obtain ⟨_, events, _, _, hlast, hdone⟩ :=
    Draws.returns_bind_iff.mp (Draws.returns_answersTo h).1
  obtain ⟨_, rfl⟩ := Draws.returns_done_iff.mp hdone
  refine ⟨ms, selected, hms, hselected, ?_⟩
  intro last counts values
  have hlate : ∀ m ∈ last, m.phase = .finalization := fun m hm =>
    of_decide_eq_true (List.mem_filter.mp hm).2
  obtain ⟨added, hadds, hevents⟩ := Settled.run hs hlate (settled_start selected) rfl hlast
  rw [List.nil_append] at hadds hevents
  have hsuccesses : (events.filter (·.mark = .success)).length =
      values.countP (firstMark counts · = .success) := by
    rw [hevents]
    exact length_marked hs hadds (by decide)
  have hfailures : (events.filter (·.mark = .failure)).length =
      values.countP (firstMark counts · = .failure) := by
    rw [hevents]
    exact length_marked hs hadds (by decide)
  have hkept : events.filter Event.isKept =
      (if counts = [] then selected.filter Event.isKeptDie else []) ++
        (tallies counts values ++ (amounts (behindCounts last)).map (.summary .constant)) := by
    rw [hevents, List.filter_append, filter_isKept_settled hs, hadds.kept]
    rfl
  have htallied : events.filter Event.isTally = tallies counts values := by
    rw [hevents, List.filter_append, filter_isTally_settled hs, hadds.tallied]
    rfl
  have hmarks : ((events.filter (·.mark = .success)).length : Int) -
      (events.filter (·.mark = .failure)).length = Event.total (tallies counts values) := by
    rw [hsuccesses, hfailures, total_tallies]
  refine ⟨⟨added, hevents, fun x hx => (hadds.summaries x hx).1⟩, ?_, ?_, hsuccesses, hfailures,
    by rw [htallied]; exact hmarks⟩
  · intro hnone
    have hvalue : keptSum events = values.sum + (amounts last).sum := by
      rw [keptSum, hkept, if_pos hnone, hnone, tallies, List.nil_append, total_append,
        total_constants, total_eq_sum, behindCounts_of_countsOf_eq_nil hnone]
    exact hvalue
  · intro hsome
    rw [if_neg hsome, List.nil_append] at hkept
    have hvalue : keptSum events = ((events.filter (·.mark = .success)).length : Int) -
        (events.filter (·.mark = .failure)).length + (amounts (behindCounts last)).sum := by
      rw [hmarks, keptSum, hkept, total_append, total_constants]
    exact ⟨hvalue, hkept⟩

/-- `4d6+1>4+2f>3-3` with a six, a five, a four and a one: a die above four is no failure. -/
theorem value_of_finalization_overlap :
    let success : Modifier := .onMatch .success ⟨.known .greater, 4⟩
    let failure : Modifier := .onMatch .failure ⟨.known .greater, 3⟩
    let modifiers : List Node := [.modifier (.adjust (.known .plus) 1), .modifier success,
      .modifier (.adjust (.known .plus) 2), .modifier failure,
      .modifier (.adjust (.known .minus) 3)]
    let run := ((Node.pool 4 (.die (.fresh (.sided 6))) modifiers).evaluate .standard).run
      (Source.ofValues [6, 5, 4, 1])
    ∃ e, run.result = .ok e ∧ e.value = -2 ∧
      e.kept = [.summary .tally 2, .summary .tally (-1), .summary .constant (-3)] ∧
      ∃ (ms : List Modifier) (selected : List Event), modifiersOf modifiers = .ok ms ∧
        e.successes = ((selected.filter Event.isKeptDie).map Event.value).countP
          (firstMark (countsOf (ms.filter (·.phase = .finalization))) · = .success) := by
  intro success failure modifiers run
  have hrun : ∃ e, run.result = .ok e ∧ e.value = -2 ∧
      e.kept = [.summary .tally 2, .summary .tally (-1), .summary .constant (-3)] :=
    ⟨_, rfl, rfl, rfl⟩
  obtain ⟨e, he, hvalue, hkept⟩ := hrun
  obtain ⟨ms, selected, hms, _, _, _, _, hsuccesses, _⟩ := value_of_finalization he
  exact ⟨e, he, hvalue, hkept, ms, selected, hms, hsuccesses⟩

end Evaluation

end Dice
