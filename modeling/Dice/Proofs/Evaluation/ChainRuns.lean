import Dice.Proofs.Evaluation.Chains

/-!
# Dice.Proofs.Evaluation.ChainRuns

Chains drawn from a source.

* `exists_passed` : remarks change nothing but the warnings, and are made on the chains that are
  complete, also if the source fails.
* `Chained`, `chained_of_run` : what a modifier of the first phase that succeeds has asked for,
  remarked and made.
* `returns_or_source_error` : it fails only if the source does.
-/

namespace Dice

namespace Evaluation

open Draws (Returns announce)

/-! ## Runs -/

variable {σ : Type} [RandomSource σ]

theorem warnings_bind {α β : Type} {p : Draws α} {f : α → Draws β}
    (hp : ∀ s : σ, (p.run s).warnings = []) (hf : ∀ a, ∀ s : σ, ((f a).run s).warnings = [])
    (s : σ) : ((p.bind f).run s).warnings = [] := by
  rw [Draws.run_bind]
  cases h : (p.run s).result with
  | error e => rw [Run.andThen, h]; exact hp s
  | ok a => rw [Run.andThen_ok h, Run.after, hp s, hf a]; rfl

theorem warnings_drawValue (d : Die) (s : σ) : ((drawValue d).run s).warnings = [] := by
  unfold drawValue
  cases d.range? with
  | none => rfl
  | some range =>
    cases hs : RandomSource.next s range.request with
    | mk answer s' =>
      cases answer with
      | error e => simp only [Draws.run_draw_error hs]
      | ok v => simp only [Draws.run_draw_ok hs]; rfl

theorem warnings_drawValues (p : Point) (d : Die) (left : Nat) (last : Int) (s : σ) :
    ((drawValues p d left last).run s).warnings = [] := by
  induction left generalizing last s with
  | zero =>
    unfold drawValues
    split <;> rfl
  | succ left ih =>
    unfold drawValues
    split
    · rfl
    · rfl
    · exact warnings_bind (warnings_drawValue d)
        (fun v => warnings_bind (ih v) fun _ _ => rfl) s

theorem warnings_drawsFor (p : Point) (limit : Nat) (e : Event) (s : σ) :
    ((drawsFor p limit e).run s).warnings = [] := by
  unfold drawsFor
  split
  · exact warnings_drawValues p e.ownDie limit e.value s
  · rfl

theorem confined_drawValue {d : Die} {P : Request → Prop}
    (hd : ∀ r, d.range?.map Range.request = some r → P r) :
    (drawValue d).Confined P fun _ => True := by
  unfold drawValue
  cases hr : d.range? with
  | none => trivial
  | some range => exact ⟨hd _ (by rw [hr]; rfl), fun _ => trivial⟩

theorem confined_drawValues {p : Point} {d : Die} {P : Request → Prop}
    (hd : ∀ r, d.range?.map Range.request = some r → P r) (left : Nat) (last : Int) :
    (drawValues p d left last).Confined P fun _ => True := by
  induction left generalizing last with
  | zero =>
    unfold drawValues
    split <;> trivial
  | succ left ih =>
    unfold drawValues
    split
    · trivial
    · trivial
    · exact (confined_drawValue hd).bind fun _ v _ => (ih v).bind fun _ _ _ => trivial

/-- All that is asked for an event is asked in the name of its die. -/
theorem requests_drawsFor {p : Point} {limit : Nat} {e : Event} {s : σ} {draws : List Int}
    (h : ((drawsFor p limit e).run s).result = .ok draws) :
    ((drawsFor p limit e).run s).requests.map some = (Chain.mk e draws).requests := by
  obtain ⟨hreturns, hlen⟩ := Draws.returns_answersTo h
  rw [(returns_drawsFor hreturns).1] at hlen
  have hconfined : (drawsFor p limit e).Confined (fun r => e.request? = some r) fun _ => True := by
    unfold drawsFor
    split
    · exact confined_drawValues (fun _ hr => hr) limit e.value
    · trivial
  refine List.eq_replicate_iff.mpr ⟨by rw [List.length_map, hlen], fun r hr => ?_⟩
  obtain ⟨r, hmem, rfl⟩ := List.mem_map.mp hr
  exact (hconfined.requests s r hmem).symm

/-- Remarks change nothing but the warnings. The chains of the first events are complete, and all
remarks are on them; if there are events behind them, nothing has come of the run. -/
theorem exists_passed (p : Point) (limit : Nat) (events : List Event) (s : σ) :
    ∃ (chains : List Chain) (rest : List Event) (more : List Int),
      events = chains.map Chain.event ++ rest ∧ (∀ c ∈ chains, c.Maximal p limit) ∧
      let quiet := (drawChains p limit (fun _ => []) events).run s
      Draws.answersTo s quiet.requests = chains.flatMap Chain.draws ++ more ∧
      (∀ all, quiet.result = .ok all → all = chains ∧ rest = [] ∧ more = [] ∧
        quiet.requests.map some = chains.flatMap Chain.requests) ∧
      ∀ remarks : Chain → List Warning, (drawChains p limit remarks events).run s =
        { quiet with warnings := chains.flatMap remarks } := by
  induction events generalizing s with
  | nil =>
    refine ⟨[], [], [], rfl, by simp, rfl, fun all h => ?_, fun _ => rfl⟩
    cases h
    exact ⟨rfl, rfl, rfl, rfl⟩
  | cons e events ih =>
    have hquiet := warnings_drawsFor p limit e s
    cases hdraws : ((drawsFor p limit e).run s).result with
    | error err =>
      have hrun (remarks : Chain → List Warning) :
          (drawChains p limit remarks (e :: events)).run s =
            ⟨.error err, ((drawsFor p limit e).run s).source,
              ((drawsFor p limit e).run s).requests, []⟩ := by
        rw [drawChains, Draws.run_bind, Run.andThen, hdraws, hquiet]
      refine ⟨[], e :: events, _, rfl, by simp, rfl, ?_, ?_⟩
      · rw [hrun]
        intro all h
        cases h
      · intro remarks
        rw [hrun, hrun]
        rfl
    | ok draws =>
      obtain ⟨chains, rest, more, hevents, hall, hanswers, hok, hremarks⟩ :=
        ih ((drawsFor p limit e).run s).source
      obtain ⟨hfirst, hmaximal⟩ := returns_drawsFor (Draws.returns_answersTo hdraws).1
      generalize hq : (drawChains p limit (fun _ => []) events).run
        ((drawsFor p limit e).run s).source = quiet at hanswers hok hremarks
      have hrun (remarks : Chain → List Warning) :
          (drawChains p limit remarks (e :: events)).run s =
            ⟨quiet.result.map (⟨e, draws⟩ :: ·), quiet.source,
              ((drawsFor p limit e).run s).requests ++ quiet.requests,
              remarks ⟨e, draws⟩ ++ chains.flatMap remarks⟩ := by
        rw [drawChains, Draws.run_bind, Run.andThen_ok hdraws, Draws.run_announce, Draws.run_map,
          hremarks, hquiet]
        rfl
      refine ⟨⟨e, draws⟩ :: chains, rest, more, by rw [hevents]; rfl,
        List.forall_mem_cons.mpr ⟨hmaximal, hall⟩, ?_, ?_, ?_⟩
      · rw [hrun]
        simp only [Draws.answersTo_append hdraws, hfirst, hanswers, List.flatMap_cons,
          List.append_assoc]
      · rw [hrun]
        intro all h
        cases hresult : quiet.result with
        | error err => rw [hresult] at h; cases h
        | ok others =>
          rw [hresult] at h
          cases h
          obtain ⟨rfl, hrest, hmore, hrequests⟩ := hok others hresult
          refine ⟨rfl, hrest, hmore, ?_⟩
          simp only [List.map_append, requests_drawsFor hdraws, hrequests, List.flatMap_cons]
      · intro remarks
        rw [hrun, hrun]
        rfl

/-! ## Modifiers on a source -/

/-- One chain for each event, in order, and nothing else is asked for. -/
structure Chained {α : Type} (p : Point) (limit : Nat) (events : List Event) (s : σ)
    (run : Run σ α) (chains : List Chain) : Prop where
  events_eq : chains.map Chain.event = events
  maximal : ∀ c ∈ chains, c.Maximal p limit
  requests : run.requests.map some = chains.flatMap Chain.requests
  answers : Draws.answersTo s run.requests = chains.flatMap Chain.draws

variable {limits : Limits} {p : Point} {pool : List Bool} {events : List Event} {s : σ}

theorem chained_of_run (t : Trigger) (ht : t.phase = .generation) {after : List Event}
    (h : ((applyModifier limits (.onMatch t p) pool events).run s).result = .ok after) :
    let run := (applyModifier limits (.onMatch t p) pool events).run s
    ∃ chains, Chained p (t.limit limits) events s run chains ∧
      run.warnings = chains.flatMap (t.remarks limits p) ∧
      after = chains.map t.settle ++ chains.flatMap t.adds := by
  intro run
  obtain ⟨chains, rest, more, hevents, hmaximal, hanswers, hok, hremarks⟩ :=
    exists_passed p (t.limit limits) events s
  have hrun : run = ((drawChains p (t.limit limits) (t.remarks limits p) events).run s).map
      fun chains => chains.map t.settle ++ chains.flatMap t.adds := by
    rw [← Draws.run_map, ← applyTrigger_eq limits ht]
    rfl
  change run.result = .ok after at h
  rw [hrun, hremarks, Run.map] at h
  rw [hrun, hremarks, Run.map]
  generalize (drawChains p (t.limit limits) (fun _ => []) events).run s = quiet at h hanswers hok ⊢
  cases hresult : quiet.result with
  | error err => rw [hresult] at h; cases h
  | ok all =>
    rw [hresult] at h
    cases h
    obtain ⟨rfl, rfl, rfl, hrequests⟩ := hok all hresult
    rw [List.append_nil] at hevents hanswers
    exact ⟨all, ⟨hevents.symm, hmaximal, hrequests, hanswers⟩, rfl, rfl⟩

theorem faultless_announce {α : Type} {q : Draws α} (hq : q.Faultless) (warnings : List Warning) :
    (announce warnings q).Faultless := by
  induction warnings with
  | nil => exact hq
  | cons w warnings ih => exact ih

theorem faultless_drawValues (hp : p.Known) {d : Die} (hd : d.range?.isSome) (left : Nat)
    (last : Int) : (drawValues p d left last).Faultless := by
  obtain ⟨range, hr⟩ := Option.isSome_iff_exists.mp hd
  have hvalue : (drawValue d).Faultless := by
    rw [drawValue, hr]
    exact ⟨trivial, fun _ => trivial⟩
  induction left generalizing last with
  | zero =>
    obtain ⟨hit, hhit⟩ := hp.holds last
    rw [drawValues, hhit]
    cases hit <;> trivial
  | succ left ih =>
    obtain ⟨hit, hhit⟩ := hp.holds last
    rw [drawValues, hhit]
    cases hit with
    | false => trivial
    | true => exact hvalue.bind fun _ v _ => (ih v).bind fun _ _ _ => trivial

theorem faultless_drawChains (hp : p.Known) (limit : Nat) (remarks : Chain → List Warning)
    (he : ∀ e ∈ events, e.isLive = true → e.request?.isSome) :
    (drawChains p limit remarks events).Faultless := by
  induction events with
  | nil => trivial
  | cons e events ih =>
    obtain ⟨hfirst, hrest⟩ := List.forall_mem_cons.mp he
    have hdraws : (drawsFor p limit e).Faultless := by
      cases hl : e.isLive with
      | false => rw [drawsFor_idle p limit hl]; trivial
      | true =>
        have hd := hfirst hl
        rw [Event.isSome_request?] at hd
        rw [drawsFor_live p limit hl]
        exact faultless_drawValues hp hd limit e.value
    have hothers (draws : List Int) : ((drawChains p limit remarks events).bind fun chains =>
        .done (Chain.mk e draws :: chains)).Faultless := (ih hrest).bind fun _ _ _ => trivial
    exact hdraws.bind fun _ draws _ => faultless_announce (hothers draws) _

/-- Only the source can fail, if the comparison is known and all dice in play have faces. -/
theorem returns_or_source_error (limits : Limits) (t : Trigger) (ht : t.phase = .generation)
    (hp : p.Known) (pool : List Bool)
    (he : ∀ e ∈ events, e.isLive = true → e.request?.isSome) (s : σ) :
    let run := (applyModifier limits (.onMatch t p) pool events).run s
    (∃ after, run.result = .ok after) ∨ ∃ err, run.result = .error (.source err) := by
  have hfaultless : (applyModifier limits (.onMatch t p) pool events).Faultless := by
    rw [applyModifier, applyTrigger_eq limits ht]
    exact (faultless_drawChains hp _ _ he).bind fun _ _ _ => trivial
  rcases hfaultless.run s with hok | ⟨_, _, err, _, _, herr⟩
  · exact .inl hok
  · exact .inr ⟨err, herr⟩

theorem flatMap_remarks {t : Trigger} {warning : Chain → Warning}
    (h : ∀ c, t.remark? limits p c = some (warning c))
    (chains : List Chain) : chains.flatMap (t.remarks limits p) =
      (chains.filter (·.isCut p (t.limit limits))).map warning := by
  induction chains with
  | nil => rfl
  | cons c chains ih =>
    rw [List.flatMap_cons, ih, Trigger.remarks, h, List.filter_cons]
    split <;> rfl

end Evaluation

end Dice
