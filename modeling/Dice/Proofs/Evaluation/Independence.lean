import Dice.Proofs.Evaluation.LifeCycle
import Dice.Proofs.Evaluation.Phases
import Dice.Proofs.Evaluation.Sum

/-!
# Dice.Proofs.Evaluation.Independence

Selecting and counting have no influence on the dice.

* `Event.Settles e e'` : what a die is stays, and what was replaced stays replaced and unmarked.
* `concludes_applyAll` : all phases but the first together do to the events what one of their
  modifiers may do.
* `evaluatePool_generation` : the modifiers of those phases only change what has come out without
  them.
* `dice_of_generation` : so two evaluations, with and without them, ask for the same dice.
-/

namespace Dice

structure Event.Settles (e e' : Event) : Prop where
  value : e'.value = e.value
  origin : e'.origin = e.origin
  die : e'.die = e.die
  significance : e'.significance = e.significance
  discarded : e.status = .discarded → e'.status = .discarded ∧ e'.mark = .neutral

/-- Only dice that count are counted. -/
theorem Event.Evolves.settles {counted : Prop} {e e' : Event} (h : e.Evolves counted e')
    (hc : counted → e.isKeptDie = true) (hm : e.mark = .neutral) : e.Settles e' := by
  refine ⟨h.value, h.origin, h.die, h.significance, fun hd => ?_⟩
  have hkept : e.status ≠ .kept := by rw [hd]; decide
  refine ⟨(h.status.resolve_right hkept).trans hd, ?_⟩
  rcases h.mark with hsame | ⟨_, hcounted⟩
  · exact hsame.trans hm
  · have hk := hc hcounted
    simp only [Event.isKeptDie, Bool.and_eq_true] at hk
    exact absurd (Event.isKept_iff.mp hk.1) hkept

namespace Evaluation

open Draws (Returns)

variable {limits : Limits} {before mid after events : List Event}

/-! ## All phases but the first -/

theorem getElem?_poolOf {i : Nat} : (poolOf events)[i]? = some true ↔
    ∃ e, events[i]? = some e ∧ e.isKeptDie = true := by
  rw [poolOf, List.getElem?_map, Option.map_eq_some_iff]

/-- No die comes to count later on. -/
theorem Concludes.counted {pool : List Bool} (h : Concludes pool before after) (i : Nat)
    (hi : (poolOf after)[i]? = some true) : (poolOf before)[i]? = some true := by
  obtain ⟨old, new, rfl, hlen, hold, hnew⟩ := h
  obtain ⟨e', he', hkept⟩ := getElem?_poolOf.mp hi
  rcases Nat.lt_or_ge i before.length with hlt | hge
  · obtain ⟨e'', he'', hevolves⟩ := hold i before[i] (List.getElem?_eq_getElem hlt)
    rw [List.getElem?_append_left (hlen ▸ hlt), he''] at he'
    cases he'
    exact getElem?_poolOf.mpr ⟨_, List.getElem?_eq_getElem hlt, hevolves.isKeptDie hkept⟩
  · rw [List.getElem?_append_right (hlen ▸ hge)] at he'
    have hdie := (hnew e' (List.mem_of_getElem? he')).isDie
    rw [Event.isKeptDie, hdie, Bool.and_false] at hkept
    cases hkept

/-- The dice fixed for counting are among those that counted at first. -/
theorem concludes_applyAll {modifiers : List Modifier}
    (hm : ∀ m ∈ modifiers, m.phase ≠ .generation) {pool : Option (List Bool)}
    (hpool : ∀ i : Nat, (pool.getD [])[i]? = some true → (poolOf before)[i]? = some true)
    (hmid : Concludes (poolOf before) before mid) {answers : List Int}
    (h : Returns (applyAll limits modifiers pool mid) answers after) :
    Concludes (poolOf before) before after := by
  induction modifiers generalizing pool mid answers with
  | nil =>
    obtain ⟨_, rfl⟩ := Draws.returns_done_iff.mp h
    exact hmid
  | cons m modifiers ih =>
    obtain ⟨hlate, hrest⟩ := List.forall_mem_cons.mp hm
    obtain ⟨_, next, _, _, hnext, hlast⟩ := Draws.returns_bind_iff.mp h
    -- no modifier in between has made a die count that did not count before
    have hfixed (i : Nat) (hi : ((poolAt m pool mid).getD [])[i]? = some true) :
        (poolOf before)[i]? = some true := by
      rcases poolAt_eq m pool mid with heq | ⟨_, _, heq⟩
      · rw [heq] at hi
        exact hpool i hi
      · rw [heq] at hi
        exact hmid.counted i hi
    exact ih hrest hfixed (hmid.trans ((returns_late hlate hnext).mono hfixed)) hlast

/-! ## Two evaluations -/

/-- Generation comes first, whatever the notation. -/
theorem phased_of_known {modifiers : List Modifier} (hk : ∀ m ∈ modifiers, m.Known) :
    ∃ late, phased modifiers = modifiers.filter (·.phase = .generation) ++ late ∧
      ∀ m ∈ late, m.phase ≠ .generation ∧ m.Known := by
  refine ⟨_, phased_eq_of_known hk, ?_⟩
  intro m hm
  simp only [List.mem_append, List.mem_filter, decide_eq_true_eq] at hm
  rcases hm with ⟨hmem, hm⟩ | ⟨hmem, hm⟩
  · exact ⟨by rw [hm]; decide, hk m hmem⟩
  · exact ⟨by rw [hm]; decide, hk m hmem⟩

/-- What comes out with all modifiers can be made of what comes out with those of the first phase,
and no die is drawn for it. -/
theorem evaluatePool_generation (limits : Limits) (count : Int) (die : Node)
    {modifiers : List Modifier} (hk : ∀ m ∈ modifiers, m.Known) :
    ∃ finish : List Event → List Event,
      (∀ events, Concludes (poolOf events) events (finish events)) ∧
      evaluatePool limits count die (modifiers.map .modifier) =
        (evaluatePool limits count die
          ((modifiers.filter (·.phase = .generation)).map .modifier)).bind
            fun e => .done ⟨keptSum (finish e.events), finish e.events⟩ := by
  obtain ⟨late, hphased, hlate⟩ := phased_of_known hk
  choose finish hfinish using applyAll_done limits hlate none
  refine ⟨finish, fun events => ?_, ?_⟩
  · have hdone : Returns (applyAll limits late none events) [] (finish events) := by
      rw [hfinish]
      exact .done
    exact concludes_applyAll (fun m hm => (hlate m hm).1) (by simp) (.refl _ events) hdone
  · have hgeneration : ∀ m ∈ modifiers.filter (·.phase = .generation),
        m.phase ≠ .finalization := by
      intro m hm
      simp only [List.mem_filter, decide_eq_true_eq] at hm
      rw [hm.2]
      decide
    rw [evaluatePool_map, evaluatePool_map, phased_filter, hphased]
    cases poolDie? die with
    | none => rfl
    | some d =>
      simp only [Draws.bind_assoc, applyAll_append limits hgeneration, hfinish, Draws.done_bind]

/-- Dice that come out of the first phase are not marked yet. -/
theorem neutral_evaluatePool {count : Int} {die : Node} {modifiers : List Modifier}
    {answers : List Int} {e : Evaluation}
    (h : Returns (evaluatePool limits count die
      ((modifiers.filter (·.phase = .generation)).map .modifier)) answers e) :
    ∀ event ∈ e.events, event.mark = .neutral := by
  obtain ⟨d, ms, first, rest, _, hms, _, _, happly, _⟩ := returns_evaluatePool h
  rw [modifiersOf_map] at hms
  cases hms
  rw [phased_filter] at happly
  refine forall_generation (fun _ h => h) (fun _ h => h.mark) (by simp) happly fun x hx => ?_
  obtain ⟨value, _, rfl⟩ := List.mem_map.mp hx
  rfl

theorem settles_of_concludes (h : Concludes (poolOf before) before after)
    (hb : ∀ e ∈ before, e.mark = .neutral) :
    ∃ old new, after = old ++ new ∧ List.Forall₂ Event.Settles before old ∧
      ∀ x ∈ new, x.IsSummary := by
  obtain ⟨old, new, rfl, hlen, hold, hnew⟩ := h
  refine ⟨old, new, rfl, List.forall₂_iff_get.mpr ⟨hlen.symm, ?_⟩, hnew⟩
  intro i hi hi'
  obtain ⟨e', he', hevolves⟩ := hold i before[i] (List.getElem?_eq_getElem hi)
  rw [List.getElem?_eq_getElem hi'] at he'
  cases he'
  refine hevolves.settles (fun hc => ?_) (hb _ (List.getElem_mem hi))
  obtain ⟨e, he, hk⟩ := getElem?_poolOf.mp hc
  rw [List.getElem?_eq_getElem hi] at he
  cases he
  exact hk

/-- Modifiers that select or count ask for no dice and change none: all requests and warnings are
those of the modifiers that generate dice, and so are the dice themselves. -/
theorem dice_of_generation (limits : Limits) (count : Int) (die : Node) {modifiers : List Modifier}
    (hk : ∀ m ∈ modifiers, m.Known) {σ : Type} [RandomSource σ] (s : σ) :
    let run := ((Node.pool count die (modifiers.map .modifier)).evaluate limits).run s
    let base := ((Node.pool count die
      ((modifiers.filter (·.phase = .generation)).map .modifier)).evaluate limits).run s
    run.requests = base.requests ∧ run.warnings = base.warnings ∧ run.source = base.source ∧
      (∀ err, run.result = .error err ↔ base.result = .error err) ∧
      ∀ e, run.result = .ok e → ∃ e', base.result = .ok e' ∧ ∃ old new,
        e.events = old ++ new ∧ List.Forall₂ Event.Settles e'.events old ∧
          ∀ x ∈ new, x.IsSummary := by
  intro run base
  obtain ⟨finish, hfinish, heq⟩ := evaluatePool_generation limits count die hk
  have hrun : run = base.map fun e => ⟨keptSum (finish e.events), finish e.events⟩ := by
    rw [← Draws.run_map]
    exact congrArg (Draws.run · s) heq
  rw [hrun]
  refine ⟨rfl, rfl, rfl, fun err => ?_, fun e he => ?_⟩
  · rw [Run.map]
    cases base.result with
    | error e => exact Iff.rfl
    | ok e =>
      constructor
      · intro h
        cases h
      · intro h
        cases h
  · cases hbase : base.result with
    | error err => rw [Run.map, hbase] at he; cases he
    | ok e' =>
      rw [Run.map, hbase] at he
      cases he
      refine ⟨e', rfl, ?_⟩
      exact settles_of_concludes (hfinish e'.events)
        (neutral_evaluatePool (Draws.returns_answersTo hbase).1)

/-- Two dice and the explosion of the six are drawn, then one is kept and counted. -/
theorem dice_of_generation_success :
    let d : Die := .fresh (.sided 6)
    let explode : Modifier := .onMatch .explode ⟨.known .equal, 6⟩
    let modifiers : List Modifier :=
      [.onMatch .success ⟨.known .equal, 6⟩, .keep 1 true, explode]
    let run := ((Node.pool 2 (.die d) (modifiers.map .modifier)).evaluate .standard).run
      (Source.script [6, 3, 2] 0)
    (∀ m ∈ modifiers, m.Known) ∧ run.requests = [⟨1, 7⟩, ⟨1, 7⟩, ⟨1, 7⟩] ∧
      ∀ e, run.result = .ok e → ∃ old new, e.events = old ++ new ∧
        List.Forall₂ Event.Settles
          [.drawn d .initial 6, .drawn d .initial 3, .drawn d .explosion 2] old ∧
        ∀ x ∈ new, x.IsSummary := by
  intro d explode modifiers run
  have hk : ∀ m ∈ modifiers, m.Known := by
    simp only [modifiers, List.forall_mem_cons, List.not_mem_nil, false_implies, implies_true,
      and_true]
    exact ⟨.onMatch (by decide) ⟨_, rfl⟩, .keep _ _, .onMatch (by decide) ⟨_, rfl⟩⟩
  obtain ⟨hrequests, _, _, _, hresult⟩ :=
    dice_of_generation .standard 2 (.die d) hk (Source.script [6, 3, 2] 0)
  refine ⟨hk, hrequests, fun e he => ?_⟩
  obtain ⟨e', hbase, hevents⟩ := hresult e he
  have hdrawn : (((Node.pool 2 (.die d) [.modifier explode]).evaluate .standard).run
      (Source.script [6, 3, 2] 0)).result =
        .ok ⟨11, [.drawn d .initial 6, .drawn d .initial 3, .drawn d .explosion 2]⟩ := rfl
  cases hdrawn.symm.trans hbase
  exact hevents

end Evaluation

end Dice
