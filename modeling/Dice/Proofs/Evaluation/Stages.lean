import Dice.Proofs.Evaluation.LifeCycle
import Dice.Proofs.Evaluation.Phases

/-!
# Dice.Proofs.Evaluation.Stages

The evaluation of a pool, one modifier after another.

* `Stage` : what is left to be applied, and what there is to apply it to.
* `Stage.step` : the next modifier applied.
* `Reaches` : stages one after another, up to any of them.
* `Starts` : the stage of a pool whose dice are just drawn.
* `run_pool` : an evaluation ends as the last of its stages does.
* `InOrder.step`, `InOrder.reaches` : nothing is dropped before the first phase is over, and every
  event lives on in its place.
-/

namespace Dice

namespace Evaluation

open Draws (Returns)

/-- The modifiers that are left, the dice fixed for counting, the events, and the source. -/
structure Stage (σ : Type) where
  left : List Modifier
  pool : Option (List Bool)
  events : List Event
  source : σ

variable {σ : Type} [RandomSource σ]

def Stage.apply (limits : Limits) (st : Stage σ) (m : Modifier) : Run σ (List Event) :=
  (applyModifier limits m ((poolAt m st.pool st.events).getD []) st.events).run st.source

/-- There is no step if no modifier is left. -/
def Stage.step (limits : Limits) (st : Stage σ) : Option (Except RunError (Stage σ)) :=
  match st.left with
  | [] => none
  | m :: left =>
    let run := st.apply limits m
    some (run.result.map fun events => ⟨left, poolAt m st.pool st.events, events, run.source⟩)

inductive Reaches (limits : Limits) (st : Stage σ) : Stage σ → Prop where
  | refl : Reaches limits st st
  | step {mid next : Stage σ} : Reaches limits st mid → mid.step limits = some (.ok next) →
      Reaches limits st next

/-- The dice are drawn, and all modifiers are left in the order of their phases. -/
def Starts (kind : DieKind) (count : Int) (modifiers : List Node) (s : σ) (st : Stage σ) : Prop :=
  ∃ ms, modifiersOf modifiers = .ok ms ∧ st.left = phased ms ∧ st.pool = none ∧
    ((drawPool (.fresh kind) count.toNat []).run s).result = .ok st.events ∧
    ((drawPool (.fresh kind) count.toNat []).run s).source = st.source

variable {limits : Limits} {start st mid next before after : Stage σ}

theorem Reaches.trans (h : Reaches limits st mid) (h' : Reaches limits mid next) :
    Reaches limits st next := by
  induction h' with
  | refl => exact h
  | step _ hstep ih => exact .step ih hstep

/-! ## One step -/

theorem step_cons {m : Modifier} {left : List Modifier} (h : st.left = m :: left) :
    st.step limits = some ((st.apply limits m).result.map fun events =>
      ⟨left, poolAt m st.pool st.events, events, (st.apply limits m).source⟩) := by
  rw [Stage.step, h]

theorem step_ok (h : st.step limits = some (.ok next)) :
    ∃ m, st.left = m :: next.left ∧ next.pool = poolAt m st.pool st.events ∧
      (st.apply limits m).result = .ok next.events ∧
      (st.apply limits m).source = next.source := by
  cases hleft : st.left with
  | nil => rw [Stage.step, hleft] at h; cases h
  | cons m left =>
    rw [step_cons hleft] at h
    cases hr : (st.apply limits m).result with
    | error e => rw [hr] at h; cases h
    | ok events => rw [hr] at h; cases h; exact ⟨m, rfl, rfl, hr, rfl⟩

theorem step_error {e : RunError} (h : st.step limits = some (.error e)) :
    ∃ m left, st.left = m :: left ∧ (st.apply limits m).result = .error e := by
  cases hleft : st.left with
  | nil => rw [Stage.step, hleft] at h; cases h
  | cons m left =>
    rw [step_cons hleft] at h
    cases hr : (st.apply limits m).result with
    | error e => rw [hr] at h; cases h; exact ⟨m, left, rfl, hr⟩
    | ok events => rw [hr] at h; cases h

/-! ## The stages of an evaluation -/

/-- The result of all modifiers that are left. -/
def Stage.result (limits : Limits) (st : Stage σ) : Except RunError (List Event) :=
  ((applyAll limits st.left st.pool st.events).run st.source).result

theorem result_nil (h : st.left = []) : st.result limits = .ok st.events := by
  rw [Stage.result, h]
  rfl

theorem result_cons {m : Modifier} {left : List Modifier} (h : st.left = m :: left) :
    st.result limits = ((st.apply limits m).andThen fun events s =>
      (applyAll limits left (poolAt m st.pool st.events) events).run s).result := by
  rw [Stage.result, h, applyAll_cons, Draws.run_bind]
  rfl

theorem result_step (h : st.step limits = some (.ok next)) :
    st.result limits = next.result limits := by
  obtain ⟨m, hleft, hpool, hresult, hsource⟩ := step_ok h
  rw [result_cons hleft, ← hpool, Run.andThen_ok hresult, hsource]
  rfl

theorem result_of_error {e : RunError} (h : st.step limits = some (.error e)) :
    st.result limits = .error e := by
  obtain ⟨m, left, hleft, hresult⟩ := step_error h
  rw [result_cons hleft, Run.andThen, hresult]

/-- The last stage has nothing left, or its next modifier fails. -/
theorem exists_last (limits : Limits) (st : Stage σ) : ∃ last, Reaches limits st last ∧
    (last.step limits = none ∧ st.result limits = .ok last.events ∨
      ∃ e, last.step limits = some (.error e) ∧ st.result limits = .error e) := by
  -- the induction is on the number of modifiers left
  generalize hn : st.left.length = n
  induction n generalizing st with
  | zero =>
    have hleft := List.length_eq_zero_iff.mp hn
    exact ⟨st, .refl, .inl ⟨by rw [Stage.step, hleft], result_nil hleft⟩⟩
  | succ n ih =>
    obtain ⟨m, left, hleft⟩ := List.exists_cons_of_length_eq_add_one hn
    cases hstep : st.step limits with
    | none => rw [step_cons hleft] at hstep; cases hstep
    | some stepped =>
      cases stepped with
      | error e => exact ⟨st, .refl, .inr ⟨e, hstep, result_of_error hstep⟩⟩
      | ok next =>
        obtain ⟨_, hnext, _⟩ := step_ok hstep
        rw [hnext, List.length_cons, Nat.add_right_cancel_iff] at hn
        obtain ⟨last, hlast, hresult⟩ := ih next hn
        refine ⟨last, (Reaches.step .refl hstep).trans hlast, ?_⟩
        rw [result_step hstep]
        exact hresult

variable {kind : DieKind} {count : Int} {modifiers : List Node} {s : σ}

theorem evaluatePool_eq (limits : Limits) (count : Int) (hkind : kind.range?.isSome)
    (modifiers : List Node) :
    evaluatePool limits count (.die (.fresh kind)) modifiers =
      (drawPool (.fresh kind) count.toNat []).bind fun events =>
        (Draws.ofExcept id (modifiersOf modifiers)).bind fun modifiers =>
          (applyAll limits (phased modifiers) none events).bind fun events =>
            .done ⟨keptSum events, events⟩ := by
  rw [evaluatePool, poolDie?, if_pos hkind]

theorem run_pool (hkind : kind.range?.isSome) (h : Starts kind count modifiers s st) :
    ((evaluatePool limits count (.die (.fresh kind)) modifiers).run s).result =
      (st.result limits).map fun events => ⟨keptSum events, events⟩ := by
  obtain ⟨ms, hms, hleft, hpool, hdraw, hsource⟩ := h
  rw [evaluatePool_eq limits count hkind, Draws.run_bind, Run.andThen_ok hdraw, hsource, hms]
  simp only [Draws.ofExcept, Draws.done_bind, Run.after, Draws.run_map, Run.map]
  rw [Stage.result, hleft, hpool]

/-- A pool that has a value has a first stage. -/
theorem exists_starts (hkind : kind.range?.isSome) {e : Evaluation}
    (h : ((evaluatePool limits count (.die (.fresh kind)) modifiers).run s).result = .ok e) :
    ∃ st, Starts kind count modifiers s st := by
  rw [evaluatePool_eq limits count hkind, Draws.run_bind] at h
  obtain ⟨events, hdraw, h⟩ := Run.exists_of_andThen_ok h
  cases hms : modifiersOf modifiers with
  | error e => rw [hms] at h; cases h
  | ok ms => exact ⟨⟨phased ms, none, events, _⟩, ms, hms, rfl, rfl, hdraw, rfl⟩

/-! ## What becomes of the events -/

/-- As long as modifiers of the first phase are left, nothing is dropped. -/
structure InOrder (st : Stage σ) : Prop where
  sorted : st.left.Pairwise fun a b => a.phase.number ≤ b.phase.number
  undropped : ∀ m ∈ st.left, m.phase = .generation → ∀ e ∈ st.events, e.isDropped = false

theorem InOrder.step (h : InOrder st) (hstep : st.step limits = some (.ok next)) :
    InOrder next ∧ Follows (next.pool.getD []) st.events next.events ∧
      ∀ m left, st.left = m :: left → m.phase = .generation →
        (∀ e ∈ st.events, e.isDropped = false) ∧ ∀ e ∈ next.events, e.isDropped = false := by
  obtain ⟨m, hleft, hpool, hresult, _⟩ := step_ok hstep
  rw [Stage.apply, ← hpool] at hresult
  have hreturns := (Draws.returns_answersTo hresult).1
  have hsorted := h.sorted
  rw [hleft, List.pairwise_cons] at hsorted
  have hundropped (hm : m.phase = .generation) : ∀ e ∈ st.events, e.isDropped = false :=
    h.undropped m (by rw [hleft]; exact List.mem_cons_self) hm
  refine ⟨⟨hsorted.2, ?_⟩, ?_, ?_⟩
  · -- if another one of the first phase is left, this one is of that phase and drops nothing
    intro m' hm' hphase
    have hnone : m.phase ≠ .none := fun hnone => not_returns_none hnone hreturns
    have hm := generation_of_pairwise (hleft ▸ h.sorted) hnone hm' hphase
    exact (follows_generation hm hreturns (hundropped hm)).2
  · by_cases hm : m.phase = .generation
    · exact (follows_generation hm hreturns (hundropped hm)).1
    · exact (returns_late hm hreturns).follows
  · intro m' left hleft' hm
    rw [hleft] at hleft'
    cases hleft'
    exact ⟨hundropped hm, (follows_generation hm hreturns (hundropped hm)).2⟩

/-- The dice fixed for counting stay the same. -/
theorem pool_mono (hstep : st.step limits = some (.ok next)) (i : Nat)
    (h : (st.pool.getD [])[i]? = some true) : (next.pool.getD [])[i]? = some true := by
  obtain ⟨m, _, hpool, _⟩ := step_ok hstep
  rcases poolAt_eq m st.pool st.events with heq | ⟨hnone, _⟩
  · rw [hpool, heq]
    exact h
  · rw [hnone] at h
    cases h

theorem InOrder.reaches (h : InOrder st) (hr : Reaches limits st next) :
    InOrder next ∧ Follows (next.pool.getD []) st.events next.events := by
  induction hr with
  | refl => exact ⟨h, .refl _ _⟩
  | step _ hstep ih =>
    obtain ⟨hmid, hfollows⟩ := ih
    obtain ⟨hnext, hlast, _⟩ := hmid.step hstep
    -- what was counted so far is counted still
    exact ⟨hnext, (hfollows.mono (pool_mono hstep)).trans hlast⟩

theorem Starts.inOrder (h : Starts kind count modifiers s st) : InOrder st := by
  obtain ⟨ms, _, hleft, _, hdraw, _⟩ := h
  refine ⟨hleft ▸ pairwise_phased ms, fun _ _ _ e he => ?_⟩
  obtain ⟨hevents, _⟩ := returns_drawPool (Draws.returns_answersTo hdraw).1
  rw [hevents] at he
  obtain ⟨value, _, rfl⟩ := List.mem_map.mp he
  rfl

/-- The dice fixed for counting are those that count when the first modifier of the last phase is
applied. -/
theorem exists_fixed (hpool : st.pool = none) (hr : Reaches limits st next) {pool : List Bool}
    (h : next.pool = some pool) :
    ∃ fixed m left, Reaches limits st fixed ∧ Reaches limits fixed next ∧ fixed.pool = none ∧
      fixed.left = m :: left ∧ m.phase = .finalization ∧ pool = poolOf fixed.events := by
  induction hr with
  | refl => rw [hpool] at h; cases h
  | @step mid next hr hstep ih =>
    obtain ⟨m, hleft, hnext, _⟩ := step_ok hstep
    rcases poolAt_eq m mid.pool mid.events with heq | ⟨hnone, hm, heq⟩
    · rw [hnext, heq] at h
      obtain ⟨fixed, m', left, hfixed, hlater, hrest⟩ := ih h
      exact ⟨fixed, m', left, hfixed, .step hlater hstep, hrest⟩
    · rw [hnext, heq] at h
      cases h
      exact ⟨mid, m, next.left, hr, .step .refl hstep, hnone, hleft, hm, rfl⟩

/-- A pool of dice that can be drawn is evaluated in stages. Every event keeps its place, its
value, its die and its origin; it is dropped or discarded once at most, and marked once at most if
it is one of the dice fixed for counting. While dice are generated nothing is dropped. -/
theorem events_follow (hkind : kind.range?.isSome) (limits : Limits) (count : Int)
    (modifiers : List Node) (s : σ) :
    let run := ((Node.pool count (.die (.fresh kind)) modifiers).evaluate limits).run s
    (∀ e, run.result = .ok e → ∃ start, Starts kind count modifiers s start) ∧
      ∀ start, Starts kind count modifiers s start →
        (∃ last, Reaches limits start last ∧
          (last.step limits = none ∧ run.result = .ok ⟨keptSum last.events, last.events⟩ ∨
            ∃ err, last.step limits = some (.error err) ∧ run.result = .error err)) ∧
        ∀ before, Reaches limits start before →
          (∀ after, Reaches limits before after →
            Follows (after.pool.getD []) before.events after.events) ∧
          (∀ m left after, before.left = m :: left → m.phase = .generation →
            before.step limits = some (.ok after) →
            (∀ e ∈ before.events, e.isDropped = false) ∧
              ∀ e ∈ after.events, e.isDropped = false) ∧
          ∀ pool, before.pool = some pool →
            ∃ fixed m left, Reaches limits start fixed ∧ Reaches limits fixed before ∧
              fixed.pool = none ∧ fixed.left = m :: left ∧ m.phase = .finalization ∧
              pool = poolOf fixed.events := by
  refine ⟨fun e => exists_starts hkind, fun start hstart => ⟨?_, fun before hbefore => ?_⟩⟩
  · obtain ⟨last, hlast, hresult⟩ := exists_last limits start
    refine ⟨last, hlast, ?_⟩
    rw [Node.evaluate, run_pool hkind hstart]
    rcases hresult with ⟨hnone, hok⟩ | ⟨err, hstep, herror⟩
    · exact .inl ⟨hnone, by rw [hok]; rfl⟩
    · exact .inr ⟨err, hstep, by rw [herror]; rfl⟩
  · have hinOrder := (hstart.inOrder.reaches hbefore).1
    refine ⟨fun after hafter => (hinOrder.reaches hafter).2, ?_, ?_⟩
    · intro m left after hleft hm hstep
      exact (hinOrder.step hstep).2.2 m left hleft hm
    · obtain ⟨_, _, _, hpool, _⟩ := hstart
      exact fun pool => exists_fixed hpool hbefore

/-- A six explodes, the two other dice are dropped, and the six is counted and replaced. -/
theorem events_follow_success :
    let d : Die := .fresh (.sided 6)
    let success : Modifier := .onMatch .success ⟨.known .equal, 6⟩
    let explode : Modifier := .onMatch .explode ⟨.known .equal, 6⟩
    let modifiers : List Node := [.modifier success, .modifier (.keep 1 true), .modifier explode]
    let six : Event := .drawn d .initial 6
    let start : Stage Source := ⟨[explode, .keep 1 true, success], none,
      [six, .drawn d .initial 3], .script [6, 3, 2] 2⟩
    let last : Stage Source := ⟨[], some [true, false, false],
      [{ six.discard with mark := .success }, (Event.drawn d .initial 3).dropped,
        (Event.drawn d .explosion 2).dropped, .summary .tally 1], .script [6, 3, 2] 3⟩
    Starts (.sided 6) 2 modifiers (Source.script [6, 3, 2] 0) start ∧
      Reaches .standard start last ∧ Follows [true, false, false] start.events last.events := by
  intro d success explode modifiers six start last
  let exploded : Stage Source := ⟨[.keep 1 true, success], none,
    [six, .drawn d .initial 3, .drawn d .explosion 2], .script [6, 3, 2] 3⟩
  let kept : Stage Source := ⟨[success], none,
    [six, (Event.drawn d .initial 3).dropped, (Event.drawn d .explosion 2).dropped],
    .script [6, 3, 2] 3⟩
  have hstart : Starts (.sided 6) 2 modifiers (Source.script [6, 3, 2] 0) start :=
    ⟨[success, .keep 1 true, explode], rfl, rfl, rfl, rfl, rfl⟩
  have hexplode : start.step .standard = some (.ok exploded) := rfl
  -- the dice are in order already
  have hranked : ranking true exploded.events = [0, 1, 2] :=
    congrArg (List.map Prod.snd) (List.mergeSort_of_pairwise (by decide))
  have hkept : keep 1 true exploded.events = kept.events := by
    rw [keep, hranked]
    rfl
  have hkeep : exploded.step .standard = some (.ok kept) := by
    rw [step_cons rfl, Stage.apply, applyModifier, hkept]
    rfl
  have hsuccess : kept.step .standard = some (.ok last) := rfl
  have hlast := ((Reaches.refl.step hexplode).step hkeep).step hsuccess
  have hkind : (DieKind.sided 6).range?.isSome := rfl
  have hfollow := events_follow hkind .standard 2 modifiers (Source.script [6, 3, 2] 0)
  exact ⟨hstart, hlast, ((hfollow.2 start hstart).2 start .refl).1 last hlast⟩

end Evaluation

end Dice
