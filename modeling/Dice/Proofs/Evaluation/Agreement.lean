import Mathlib.Algebra.BigOperators.Group.List.Basic
import Dice.Proofs.Evaluation.ChainRuns
import Dice.Proofs.Evaluation.Phases

/-!
# Dice.Proofs.Evaluation.Agreement

Dice that explode and dice that compound come to the same.

* `keptSum_extra` : the extra dice count beside the dice that count, in either way.
* `applyAll_constants` : constants add the same amount to any sum.
* `applyTrigger_extra` : what a pool comes to, from the chains drawn for it.
* `explode_compound_agree` : the same is asked for, the value is the same, and the same chains are
  cut.
-/

namespace Dice

namespace Evaluation

open Draws (answersTo)

/-! ## What counts -/

theorem keptSum_perm {events events' : List Event} (h : events.Perm events') :
    keptSum events = keptSum events' := by
  rw [keptSum, keptSum, total_eq_sum, total_eq_sum]
  exact ((h.filter _).map _).sum_eq

theorem keptSum_cons (e : Event) (events : List Event) :
    keptSum (e :: events) = keptSum [e] + keptSum events :=
  keptSum_append [e] events

theorem keptSum_drawn (d : Die) (origin : Origin) (draws : List Int) :
    keptSum (draws.map (.drawn d origin)) = draws.sum := by
  rw [keptSum, List.filter_eq_self.mpr, total_drawn]
  intro e he
  obtain ⟨v, _, rfl⟩ := List.mem_map.mp he
  rfl

theorem keptSum_discarded (events : List Event) : keptSum (events.map .discard) = 0 := by
  rw [keptSum, List.filter_eq_nil_iff.mpr]
  · rfl
  · intro e he
    obtain ⟨e, _, rfl⟩ := List.mem_map.mp he
    simp [Event.isKept, Event.discard]

theorem keptSum_sum (c : Chain) : keptSum [c.sum] = c.event.value + c.draws.sum :=
  (keptSum_drawn c.event.ownDie .compound [c.values.sum]).trans (by simp [Chain.values])

/-- A die in play counts unless it is dropped. -/
theorem keptSum_live {e : Event} (hl : e.isLive = true) (hd : e.isDropped = false) :
    keptSum [e] = e.value := by
  have hkept : e.isKept = true := by
    cases hs : e.status with
    | kept => simp [Event.isKept, hs]
    | dropped => simp [Event.isDropped, hs] at hd
    | discarded => simp [Event.isLive, Event.isDiscarded, hs] at hl
  simp [keptSum, hkept, Event.total]

/-- The values drawn for a die count beside the die itself, whether they stay single or not. -/
theorem keptSum_extra_one {t : Trigger} (ht : t = .explode ∨ t = .compound) {p : Point}
    {limit : Nat} {c : Chain} (h : c.Maximal p limit) (hd : c.event.isDropped = false) :
    keptSum (t.settle c :: t.adds c) = keptSum [c.event] + c.draws.sum := by
  rcases ht with rfl | rfl
  · rw [settle_explode, keptSum_cons]
    exact congrArg _ (keptSum_drawn _ _ _)
  · by_cases hnil : c.draws = []
    · simp [Trigger.settle, Trigger.adds, hnil]
    · have hsettle : Trigger.compound.settle c = c.event.discard := by simp [Trigger.settle, hnil]
      have hdiscard : keptSum [c.event.discard] = 0 := keptSum_discarded [c.event]
      rw [Trigger.adds, if_neg hnil, hsettle, keptSum_cons, keptSum_append, keptSum_discarded,
        hdiscard, keptSum_sum, keptSum_live (h.isLive_of_draws hnil) hd, Int.zero_add, Int.zero_add]

theorem keptSum_extra {t : Trigger} (ht : t = .explode ∨ t = .compound) {p : Point} {limit : Nat}
    {chains : List Chain} (h : ∀ c ∈ chains, c.Maximal p limit)
    (hd : ∀ c ∈ chains, c.event.isDropped = false) :
    keptSum (chains.map t.settle ++ chains.flatMap t.adds) =
      keptSum (chains.map Chain.event) + (chains.flatMap Chain.draws).sum := by
  rw [keptSum_perm (made_perm t chains)]
  induction chains with
  | nil => rfl
  | cons c chains ih =>
    obtain ⟨hc, hrest⟩ := List.forall_mem_cons.mp h
    obtain ⟨hdc, hdrest⟩ := List.forall_mem_cons.mp hd
    rw [List.flatMap_cons, keptSum_append, ih hrest hdrest, keptSum_extra_one ht hc hdc,
      List.map_cons, keptSum_cons c.event (chains.map Chain.event), List.flatMap_cons,
      List.sum_append]
    omega

/-! ## Pools -/

/-- Constants do not look at the dice. They may be unknown, but then so they are for any dice. -/
theorem applyAll_constants (limits : Limits) {last : List Modifier}
    (h : ∀ m ∈ last, ∃ sign value, m = .adjust sign value) :
    ∃ amount : Except RollError Int, ∀ pool events,
      (applyAll limits last pool events).bind (fun after => .done (keptSum after)) =
        .ofExcept id (amount.map (keptSum events + ·)) := by
  induction last with
  | nil => exact ⟨.ok 0, fun _ events => congrArg Draws.done (Int.add_zero (keptSum events)).symm⟩
  | cons m last ih =>
    obtain ⟨⟨sign, value, rfl⟩, hlast⟩ := List.forall_mem_cons.mp h
    obtain ⟨amount, hamount⟩ := ih hlast
    cases sign with
    | unknown found => exact ⟨.error (.noFactor found), fun _ _ => rfl⟩
    | known sign =>
      refine ⟨amount.map (sign.apply value + ·), fun pool events => ?_⟩
      have hadds : keptSum (adjust (sign.apply value) events) =
          keptSum events + sign.apply value := by
        rw [adjust, keptSum_append]
        simp [keptSum, Event.isKept, Event.summary, Event.total]
      rw [applyAll_cons, Draws.bind_assoc]
      refine (hamount _ (adjust (sign.apply value) events)).trans ?_
      rw [hadds]
      cases amount with
      | error e => rfl
      | ok n => exact congrArg Draws.done (Int.add_assoc _ _ _)

/-- A pool comes to what it has come to before, the values drawn for its dice, and the constants
behind. -/
theorem applyTrigger_extra {limits : Limits} {last : List Modifier} {amount : Except RollError Int}
    (hamount : ∀ pool events,
      (applyAll limits last pool events).bind (fun after => .done (keptSum after)) =
        .ofExcept id (amount.map (keptSum events + ·)))
    {t : Trigger} (ht : t = .explode ∨ t = .compound) (p : Point) (pool : List Bool)
    {events : List Event} (hd : ∀ e ∈ events, e.isDropped = false) :
    ((applyTrigger limits t p pool events).bind fun after =>
        (applyAll limits last none after).bind fun after => .done (keptSum after)) =
      (drawChains p (t.limit limits) (t.remarks limits p) events).bind fun chains =>
        .ofExcept id (amount.map (keptSum events + (chains.flatMap Chain.draws).sum + ·)) := by
  have hphase : t.phase = .generation := by rcases ht with rfl | rfl <;> rfl
  rw [applyTrigger_eq limits hphase, Draws.bind_assoc]
  refine Draws.bind_congr fun answers chains h => ?_
  obtain ⟨rfl, hmaximal, _⟩ := returns_drawChains h
  have hdropped : ∀ c ∈ chains, c.event.isDropped = false :=
    fun c hc => hd _ (List.mem_map_of_mem hc)
  rw [Draws.done_bind, hamount, keptSum_extra ht hmaximal hdropped]

variable {first last : List Modifier}

theorem evaluate_generation (limits : Limits) (count : Int) (die : Node)
    (hfirst : ∀ m ∈ first, m.phase = .generation) (hlast : ∀ m ∈ last, m.phase = .finalization)
    {m : Modifier} (hm : m.phase = .generation) :
    (Node.pool count die ((first ++ m :: last).map .modifier)).evaluate limits =
      ((Node.pool count die (first.map .modifier)).evaluate limits).bind fun e =>
        (applyModifier limits m [] e.events).bind fun events =>
          (applyAll limits last none events).bind fun events => .done ⟨keptSum events, events⟩ := by
  have hall : ∀ m' ∈ first ++ [m], m'.phase = .generation :=
    List.forall_mem_append.mpr ⟨hfirst, List.forall_mem_singleton.mpr hm⟩
  have hphased : phased (first ++ m :: last) = first ++ m :: last := by
    rw [List.append_cons]
    exact phased_generation_append hall hlast
  have hne : ∀ m' ∈ first, m'.phase ≠ .finalization := fun m' hm' => by
    rw [hfirst m' hm']
    decide
  have hpool (events : List Event) : poolAt m none events = none := by
    rw [poolAt, hm]
    rfl
  rw [Node.evaluate, Node.evaluate, evaluatePool_map, evaluatePool_map, hphased,
    phased_generation hfirst]
  cases poolDie? die with
  | none => rfl
  | some d =>
    simp only [applyAll_append limits hne, applyAll_cons, hpool, Draws.bind_assoc, Draws.done_bind,
      Option.getD_none]

/-- Nothing is dropped before all dice are there. -/
theorem isDropped_evaluate {limits : Limits} {count : Int} {die : Node}
    (hfirst : ∀ m ∈ first, m.phase = .generation) {answers : List Int} {e : Evaluation}
    (h : Draws.Returns ((Node.pool count die (first.map .modifier)).evaluate limits) answers e) :
    ∀ event ∈ e.events, event.isDropped = false := by
  rw [Node.evaluate] at h
  obtain ⟨d, ms, values, _, _, hms, _, _, happly, _⟩ := returns_evaluatePool h
  rw [modifiersOf_map] at hms
  cases hms
  have hphased : ∀ m ∈ phased first, m.phase = .generation := fun m hm => hfirst m (mem_phased hm)
  refine forall_generation (fun _ _ => rfl) (fun _ hx => hx.isDropped) hphased happly ?_
  intro event hevent
  obtain ⟨value, _, rfl⟩ := List.mem_map.mp hevent
  rfl

/-! ## Both on a source -/

variable {σ : Type} [RandomSource σ]

/-- The value of a roll with extra dice, from the pool that the modifiers before leave. -/
theorem run_extra (limits : Limits) (count : Int) (die : Node)
    (hfirst : ∀ m ∈ first, m.phase = .generation)
    (hlast : ∀ m ∈ last, ∃ sign value, m = .adjust sign value) {t : Trigger}
    (ht : t = .explode ∨ t = .compound) (p : Point) (s : σ) :
    (((Node.pool count die ((first ++ .onMatch t p :: last).map .modifier)).evaluate limits).run
        s).map Evaluation.value =
      (((Node.pool count die (first.map .modifier)).evaluate limits).run s).andThen fun e s =>
        ((applyTrigger limits t p [] e.events).bind fun after =>
          (applyAll limits last none after).bind fun after => .done (keptSum after)).run s := by
  have hphase : ∀ m ∈ last, m.phase = .finalization := fun m hm => by
    obtain ⟨_, _, rfl⟩ := hlast m hm
    rfl
  have hgeneration : (Modifier.onMatch t p).phase = .generation := by
    rcases ht with rfl | rfl <;> rfl
  rw [evaluate_generation limits count die hfirst hphase hgeneration, ← Draws.run_map,
    ← Draws.run_bind]
  simp only [Draws.bind_assoc, Draws.done_bind]
  rfl

/-- In either way the run is the same apart from what is warned of. The chains of the first dice are
complete; if there are dice behind them, nothing has come of the run. -/
theorem exists_extra {limits : Limits} (hl : limits.explosions = limits.compounds) (count : Int)
    (die : Node) (hfirst : ∀ m ∈ first, m.phase = .generation)
    (hlast : ∀ m ∈ last, ∃ sign value, m = .adjust sign value) (p : Point) (s : σ) :
    let base := ((Node.pool count die (first.map .modifier)).evaluate limits).run s
    ∃ (quiet : Run σ Int) (chains : List Chain) (rest : List Event) (more : List Int),
      (∀ t : Trigger, t = .explode ∨ t = .compound →
        (((Node.pool count die ((first ++ .onMatch t p :: last).map .modifier)).evaluate
          limits).run s).map Evaluation.value =
          { quiet with warnings := base.warnings ++ chains.flatMap (t.remarks limits p) }) ∧
      (∀ c ∈ chains, c.Maximal p limits.explosions) ∧
      (∀ pool, base.result = .ok pool → pool.events = chains.map Chain.event ++ rest) ∧
      (∀ err, base.result = .error err → chains = []) ∧
      answersTo s quiet.requests =
        answersTo s base.requests ++ chains.flatMap Chain.draws ++ more ∧
      (∀ value, quiet.result = .ok value → rest = [] ∧ more = []) := by
  intro base
  obtain ⟨amount, hamount⟩ := applyAll_constants limits hlast
  have hroll {t : Trigger} (ht : t = .explode ∨ t = .compound) :=
    run_extra limits count die hfirst hlast ht p s
  cases hbase : base.result with
  | error err =>
    refine ⟨⟨.error err, base.source, base.requests, []⟩, [], [], [], fun t ht => ?_, by simp,
      by simp, fun _ _ => rfl, by simp, by simp⟩
    rw [hroll ht]
    change base.andThen _ = _
    rw [Run.andThen, hbase]
    simp
  | ok e =>
    obtain ⟨chains, rest, more, hevents, hmaximal, hanswers, hok, hremarks⟩ :=
      exists_passed p limits.explosions e.events base.source
    generalize (drawChains p limits.explosions (fun _ => []) e.events).run base.source = drawn
      at hanswers hok hremarks
    have hd := isDropped_evaluate hfirst (Draws.returns_answersTo hbase).1
    let value (all : List Chain) : Except RunError Int :=
      (amount.map (keptSum e.events + (all.flatMap Chain.draws).sum + ·)).mapError .roll
    refine ⟨⟨drawn.result.bind value, drawn.source, base.requests ++ drawn.requests, []⟩, chains,
      rest, more, fun t ht => ?_, hmaximal, ?_, by simp, ?_, fun v h => ?_⟩
    · have hlimit : t.limit limits = limits.explosions := by
        rcases ht with rfl | rfl
        · rfl
        · exact hl.symm
      rw [hroll ht, Run.andThen_ok hbase, applyTrigger_extra hamount ht p [] hd, Draws.run_bind,
        hlimit, hremarks]
      simp only [Draws.run_ofExcept]
      obtain ⟨result, s', requests, warnings⟩ := drawn
      cases result with
      | error err => rfl
      | ok all => simp [Run.andThen, Run.after, Except.bind, value]
    · intro pool hpool
      cases hpool
      exact hevents
    · rw [Draws.answersTo_append hbase, hanswers, List.append_assoc]
    · cases hresult : drawn.result with
      | error err => rw [hresult] at h; cases h
      | ok all =>
        obtain ⟨_, hrest, hmore, _⟩ := hok all hresult
        exact ⟨hrest, hmore⟩

/-- Behind the same modifiers of the first phase, and before the same constants, it does not matter
to the value whether dice explode or compound, nor to what is asked of the source, if the limits are
equal: the result is the same, or the same failure. The chains of the first dice that the pool has
then are complete, all of them if there is a result, and in both rolls there is a warning for each
of these chains that only the limit has ended. -/
theorem explode_compound_agree {limits : Limits} (hl : limits.explosions = limits.compounds)
    (count : Int) (die : Node) {first last : List Modifier}
    (hfirst : ∀ m ∈ first, m.phase = .generation)
    (hlast : ∀ m ∈ last, ∃ sign value, m = .adjust sign value) (p : Point)
    {σ : Type} [RandomSource σ] (s : σ) :
    let roll (t : Trigger) : Node :=
      .pool count die ((first ++ .onMatch t p :: last).map .modifier)
    let base := ((Node.pool count die (first.map .modifier)).evaluate limits).run s
    let exploded := ((roll .explode).evaluate limits).run s
    let compounded := ((roll .compound).evaluate limits).run s
    exploded.requests = compounded.requests ∧ exploded.source = compounded.source ∧
      exploded.result.map Evaluation.value = compounded.result.map Evaluation.value ∧
      ∃ (chains : List Chain) (rest : List Event) (more : List Int),
        (∀ c ∈ chains, c.Maximal p limits.explosions) ∧
        (∀ pool, base.result = .ok pool → pool.events = chains.map Chain.event ++ rest) ∧
        (∀ err, base.result = .error err → chains = []) ∧
        answersTo s exploded.requests =
          answersTo s base.requests ++ chains.flatMap Chain.draws ++ more ∧
        (∀ e, exploded.result = .ok e → rest = [] ∧ more = []) ∧
        exploded.warnings = base.warnings ++ (chains.filter (·.isCut p limits.explosions)).map
          (fun _ => .explosionLimit limits.explosions (.onMatch .explode p)) ∧
        compounded.warnings = base.warnings ++ (chains.filter (·.isCut p limits.explosions)).map
          (fun _ => .compoundLimit limits.compounds (.onMatch .compound p)) := by
  intro roll base exploded compounded
  obtain ⟨quiet, chains, rest, more, hruns, hmaximal, hpool, herror, hanswers, hvalue⟩ :=
    exists_extra hl count die hfirst hlast p s
  have hexploded := hruns .explode (.inl rfl)
  have hcompounded := hruns .compound (.inr rfl)
  have hrequests : exploded.requests = quiet.requests := congrArg Run.requests hexploded
  have hresult : exploded.result.map Evaluation.value = quiet.result :=
    congrArg Run.result hexploded
  refine ⟨hrequests.trans (congrArg Run.requests hcompounded).symm,
    (congrArg Run.source hexploded).trans (congrArg Run.source hcompounded).symm,
    hresult.trans (congrArg Run.result hcompounded).symm, chains, rest, more, hmaximal, hpool,
    herror, ?_, fun e he => ?_, ?_, ?_⟩
  · rw [hrequests]
    exact hanswers
  · exact hvalue e.value (by rw [← hresult, he]; rfl)
  · have hcut : chains.flatMap (Trigger.explode.remarks limits p) = _ :=
      flatMap_remarks (fun _ => rfl) chains
    exact (congrArg Run.warnings hexploded).trans (congrArg (base.warnings ++ ·) hcut)
  · have hcut : chains.flatMap (Trigger.compound.remarks limits p) = _ :=
      flatMap_remarks (fun _ => rfl) chains
    rw [hl]
    exact (congrArg Run.warnings hcompounded).trans (congrArg (base.warnings ++ ·) hcut)

/-- `3d6ro=1+3-1`, with sixes that explode or compound into two more dice at most: the one is drawn
again as a six. The chain of the first six is cut, the other one ends with a two. -/
theorem explode_compound_agree_cut :
    let limits : Limits := ⟨2, 2⟩
    let p : Point := ⟨.known .equal, 6⟩
    let first : List Modifier := [.onMatch .rerollOnce ⟨.known .equal, 1⟩]
    let last : List Modifier := [.adjust (.known .plus) 3, .adjust (.known .minus) 1]
    let roll (t : Trigger) : Node :=
      .pool 3 (.die (.fresh (.sided 6))) ((first ++ .onMatch t p :: last).map .modifier)
    let s := Source.ofValues [6, 1, 5, 6, 6, 6, 2]
    let exploded := ((roll .explode).evaluate limits).run s
    let compounded := ((roll .compound).evaluate limits).run s
    limits.explosions = limits.compounds ∧ (∀ m ∈ first, m.phase = .generation) ∧
      (∀ m ∈ last, ∃ sign value, m = .adjust sign value) ∧
      exploded.requests = compounded.requests ∧ exploded.requests.length = 7 ∧
      exploded.warnings = [.explosionLimit 2 (.onMatch .explode p)] ∧
      ∃ e, compounded.result = .ok e ∧ e.value = 33 ∧
        exploded.result.map Evaluation.value = .ok 33 := by
  intro limits p first last roll s exploded compounded
  have hfirst : ∀ m ∈ first, m.phase = .generation := by simp [first, Modifier.phase, Trigger.phase]
  have hlast : ∀ m ∈ last, ∃ sign value, m = .adjust sign value := by simp [last]
  have hl : limits.explosions = limits.compounds := rfl
  obtain ⟨hrequests, _, hvalue, _⟩ :=
    explode_compound_agree hl 3 (.die (.fresh (.sided 6))) hfirst hlast p s
  exact ⟨hl, hfirst, hlast, hrequests, rfl, rfl, _, rfl, rfl, hvalue⟩

end Evaluation

end Dice
