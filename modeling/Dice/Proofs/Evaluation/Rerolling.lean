import Dice.Proofs.Evaluation.ChainRuns

/-!
# Dice.Proofs.Evaluation.Rerolling

What comes of drawing dice again.

* `Point.triggers` : a die in play that meets a condition.
* `Chain.Maximal.length_once` : a chain of at most one value has it if the die meets the condition.
* `countP_discardAllButLast` : of a chain of replacements only the last one is in play.
* `reroll_replaces` : dice drawn again once, and dice drawn again until they do not meet the
  condition.
-/

namespace Dice

def Point.triggers (p : Point) (e : Event) : Bool :=
  e.isLive && p.meets e.value

theorem Event.isLive_redrawn (d : Die) (value : Int) :
    (Event.drawn d .reroll value).isLive = true := by
  simp [isLive, isDiscarded, isDie, drawn, Die.again, Die.rollable]

namespace Chain

variable {p : Point} {limit : Nat} {c : Chain}

theorem Maximal.triggers_iff (h : c.Maximal p limit) (hlimit : 0 < limit) :
    p.triggers c.event = true ↔ c.draws ≠ [] := by
  rw [Point.triggers, Bool.and_eq_true]
  constructor
  · rintro ⟨hl, hmeets⟩ hnil
    have hstops := h.stops hl (by rwa [hnil])
    rw [Chain.last, hnil, List.getLastD_nil, hmeets] at hstops
    cases hstops
  · intro hne
    refine ⟨h.isLive_of_draws hne, h.meets _ ?_⟩
    obtain ⟨v, draws, hdraws⟩ := List.exists_cons_of_ne_nil hne
    rw [values, hdraws, List.dropLast_cons_cons]
    exact List.mem_cons_self

theorem Maximal.length_once (h : c.Maximal p 1) :
    c.draws.length = if p.triggers c.event then 1 else 0 := by
  have hle := h.length_le
  cases ht : p.triggers c.event with
  | true =>
    have hpos := List.length_pos_iff.mpr ((h.triggers_iff Nat.one_pos).mp ht)
    rw [if_pos rfl]
    omega
  | false =>
    have hnil : c.draws = [] := by
      by_contra hne
      rw [(h.triggers_iff Nat.one_pos).mpr hne] at ht
      cases ht
    rw [hnil]
    rfl

end Chain

namespace Evaluation

open Draws (answersTo)

/-! ## Drawing again once -/

variable {p : Point}

theorem requests_once {chains : List Chain} (h : ∀ c ∈ chains, c.Maximal p 1) :
    chains.flatMap Chain.requests =
      ((chains.map Chain.event).filter p.triggers).map Event.request? := by
  induction chains with
  | nil => rfl
  | cons c chains ih =>
    obtain ⟨hc, hrest⟩ := List.forall_mem_cons.mp h
    rw [List.flatMap_cons, ih hrest, Chain.requests, hc.length_once, List.map_cons,
      List.filter_cons]
    split <;> rfl

theorem redrawn_once {chains : List Chain} (h : ∀ c ∈ chains, c.Maximal p 1) :
    chains.flatMap Trigger.rerollOnce.adds =
      List.zipWith (fun e v => .drawn e.ownDie .reroll v)
        ((chains.map Chain.event).filter p.triggers) (chains.flatMap Chain.draws) := by
  induction chains with
  | nil => rfl
  | cons c chains ih =>
    obtain ⟨hc, hrest⟩ := List.forall_mem_cons.mp h
    have hlen := hc.length_once
    have hadds : Trigger.rerollOnce.adds c = discardAllButLast (c.drawn .reroll) := rfl
    rw [List.flatMap_cons, ih hrest, List.flatMap_cons, List.map_cons, List.filter_cons, hadds,
      Chain.drawn]
    split at hlen
    · rename_i ht
      obtain ⟨v, hv⟩ := List.length_eq_one_iff.mp hlen
      rw [if_pos ht, hv]
      rfl
    · rename_i ht
      rw [if_neg ht, List.length_eq_zero_iff.mp hlen]
      rfl

theorem settled_once {chains : List Chain} (h : ∀ c ∈ chains, c.Maximal p 1) :
    chains.map Trigger.rerollOnce.settle =
      (chains.map Chain.event).map fun e => if p.triggers e then e.discard else e := by
  rw [List.map_map]
  refine List.map_congr_left fun c hc => ?_
  have htriggers := (h c hc).triggers_iff Nat.one_pos
  by_cases hnil : c.draws = []
  · simp [Trigger.settle, htriggers, hnil]
  · simp [Trigger.settle, htriggers, hnil]

/-! ## Drawing again as long as it is needed -/

/-- Of a chain of replacements only the last one can count for what is in play. -/
theorem countP_discardAllButLast {q : Event → Bool} (hq : ∀ e : Event, q e.discard = false)
    (d : Die) (v : Int) (draws : List Int) :
    (discardAllButLast ((v :: draws).map (.drawn d .reroll))).countP q =
      if q (.drawn d .reroll (draws.getLastD v)) then 1 else 0 := by
  induction draws generalizing v with
  | nil => exact List.countP_singleton
  | cons v' draws ih =>
    have hrest : discardAllButLast ((v :: v' :: draws).map (.drawn d .reroll)) =
        (Event.drawn d .reroll v).discard ::
          discardAllButLast ((v' :: draws).map (.drawn d .reroll)) := rfl
    rw [List.getLastD_cons, ← ih v', hrest, List.countP_cons, hq]
    rfl

/-- What is made of a chain, counted where the die itself is replaced. -/
theorem countP_again {t : Trigger} (ht : t = .rerollOnce ∨ t = .rerollWhile) {q : Event → Bool}
    (hq : ∀ e : Event, q e.discard = false) (c : Chain) :
    (t.settle c :: t.adds c).countP q =
      if (if c.draws = [] then q c.event else q (.drawn c.event.ownDie .reroll c.last)) then 1
      else 0 := by
  obtain ⟨e, draws⟩ := c
  cases draws with
  | nil => simp [settle_nil, adds_nil, List.countP_singleton]
  | cons v draws =>
    have hadds : t.adds ⟨e, v :: draws⟩ =
        discardAllButLast ((v :: draws).map (.drawn e.ownDie .reroll)) := by
      rcases ht with rfl | rfl <;> rfl
    have hsettle : t.settle ⟨e, v :: draws⟩ = e.discard := by
      rcases ht with rfl | rfl <;> simp [Trigger.settle]
    rw [hadds, hsettle, List.countP_cons, hq, countP_discardAllButLast hq, Chain.last,
      List.getLastD_cons]
    rfl

theorem live_again {t : Trigger} (ht : t = .rerollOnce ∨ t = .rerollWhile) {limit : Nat} {c : Chain}
    (h : c.Maximal p limit) :
    (t.settle c :: t.adds c).countP Event.isLive = if c.event.isLive then 1 else 0 := by
  rw [countP_again ht Event.isLive_discard]
  by_cases hnil : c.draws = []
  · rw [if_pos hnil]
  · rw [if_neg hnil, Event.isLive_redrawn, h.isLive_of_draws hnil]

/-- A die that still meets the condition has reached the limit. -/
theorem triggers_again {limit : Nat} (hlimit : 0 < limit) {c : Chain} (h : c.Maximal p limit) :
    (Trigger.rerollWhile.settle c :: Trigger.rerollWhile.adds c).countP p.triggers =
      if c.isCut p limit then 1 else 0 := by
  have hdiscard (e : Event) : p.triggers e.discard = false := by
    rw [Point.triggers, Event.isLive_discard, Bool.false_and]
  rw [countP_again (.inr rfl) hdiscard]
  by_cases hnil : c.draws = []
  · have hmiss : ¬ p.triggers c.event = true := by simp [h.triggers_iff hlimit, hnil]
    have hcut : ¬ c.isCut p limit = true := by
      simp [Chain.isCut, hnil, Nat.ne_of_lt hlimit]
    rw [if_pos hnil, if_neg hmiss, if_neg hcut]
  · have hl := h.isLive_of_draws hnil
    have hvalue : (Event.drawn c.event.ownDie .reroll c.last).value = c.last := rfl
    rw [if_neg hnil, Point.triggers, Event.isLive_redrawn, Bool.true_and, hvalue, Chain.isCut, hl,
      Bool.true_and]
    cases hm : p.meets c.last with
    | false => simp
    | true =>
      -- a shorter chain would have gone on
      have hlen : c.draws.length = limit := by
        refine Nat.le_antisymm h.length_le (Nat.le_of_not_lt fun hlt => ?_)
        rw [h.stops hl hlt] at hm
        cases hm
      simp [hlen]

/-- A die drawn again once is replaced by what the source answers, whatever that is. A die drawn
again as long as it meets a condition is replaced by the last one of its chain; as many dice still
meet the condition as there are warnings. Nothing but the source can fail, if the comparison is
known and all dice in play have faces. -/
theorem reroll_replaces (limits : Limits) (p : Point) (pool : List Bool) (events : List Event)
    {σ : Type} [RandomSource σ] (s : σ) :
    let once := (applyModifier limits (.onMatch .rerollOnce p) pool events).run s
    let again := (applyModifier limits (.onMatch .rerollWhile p) pool events).run s
    (∀ after, once.result = .ok after →
      once.warnings = [] ∧
      once.requests.map some = (events.filter p.triggers).map Event.request? ∧
      (answersTo s once.requests).length = (events.filter p.triggers).length ∧
      after = (events.map fun e => if p.triggers e then e.discard else e) ++
        List.zipWith (fun e v => .drawn e.ownDie .reroll v) (events.filter p.triggers)
          (answersTo s once.requests)) ∧
    (∀ after, again.result = .ok after → ∃ chains, Chained p rerollLimit events s again chains ∧
      after = (chains.map fun c => if c.draws = [] then c.event else c.event.discard) ++
        (chains.flatMap fun c => discardAllButLast (c.drawn .reroll)) ∧
      again.warnings = (chains.filter (·.isCut p rerollLimit)).map
        (fun c => .rerollLimit rerollLimit (.onMatch .rerollWhile p) c.last) ∧
      after.countP Event.isLive = events.countP Event.isLive ∧
      after.countP p.triggers = again.warnings.length) ∧
    (p.Known → (∀ e ∈ events, e.isLive = true → e.request?.isSome) →
      ((∃ after, once.result = .ok after) ∨ ∃ err, once.result = .error (.source err)) ∧
      ((∃ after, again.result = .ok after) ∨ ∃ err, again.result = .error (.source err))) := by
  intro once again
  refine ⟨fun after h => ?_, fun after h => ?_, fun hp he => ⟨?_, ?_⟩⟩
  · have hlen := (Draws.returns_answersTo h).2
    obtain ⟨chains, hchained, hwarnings, rfl⟩ := chained_of_run .rerollOnce rfl h
    have hnone (c : Chain) : Trigger.rerollOnce.remarks limits p c = [] := by
      simp [Trigger.remarks, Trigger.remark?]
    have hrequests := hchained.requests
    rw [requests_once hchained.maximal, hchained.events_eq] at hrequests
    refine ⟨?_, hrequests, ?_, ?_⟩
    · refine hwarnings.trans ?_
      simp [hnone]
    · refine hlen.trans ?_
      simpa using congrArg List.length hrequests
    · rw [settled_once hchained.maximal, redrawn_once hchained.maximal, hchained.events_eq,
        ← hchained.answers]
  · obtain ⟨chains, hchained, hwarnings, rfl⟩ := chained_of_run .rerollWhile rfl h
    have hcut := hwarnings.trans (flatMap_remarks (fun _ => rfl) chains)
    have hlive := fun c hc => live_again (.inr rfl) (hchained.maximal c hc)
    have hlimit : 0 < rerollLimit := by decide
    have htriggers := fun c hc => triggers_again hlimit (hchained.maximal c hc)
    refine ⟨chains, hchained, ?_, hcut, ?_, ?_⟩
    · have hne : Trigger.rerollWhile ≠ .explode := by decide
      rw [settle_replaced hne]
      rfl
    · rw [countP_made hlive, ← hchained.events_eq, List.countP_map]
      rfl
    · rw [countP_made htriggers, hcut, List.length_map, List.countP_eq_length_filter]
      rfl
  · exact returns_or_source_error limits .rerollOnce rfl hp pool he s
  · exact returns_or_source_error limits .rerollWhile rfl hp pool he s

/-- Ones are drawn again: the first die shows one ten times more, the second is a five at once. What
is discarded stays so. -/
theorem reroll_replaces_limited :
    let d : Die := .fresh (.sided 6)
    let p : Point := ⟨.known .equal, 1⟩
    let events : List Event := [.drawn d .initial 1, (Event.drawn d .initial 1).discard,
      .drawn d .reroll 1, .drawn d .initial 4]
    let s := Source.script (List.replicate 10 1 ++ [5]) 0
    let once := (applyModifier .standard (.onMatch .rerollOnce p) [] events).run s
    let again := (applyModifier .standard (.onMatch .rerollWhile p) [] events).run s
    p.Known ∧ (∀ e ∈ events, e.isLive = true → e.request?.isSome) ∧
      once.warnings = [] ∧ once.requests = [⟨1, 7⟩, ⟨1, 7⟩] ∧
      once.result = .ok [(Event.drawn d .initial 1).discard, (Event.drawn d .initial 1).discard,
        (Event.drawn d .reroll 1).discard, .drawn d .initial 4, .drawn d .reroll 1,
        .drawn d .reroll 1] ∧
      ∃ after, again.result = .ok after ∧ again.requests.length = 11 ∧
        after.countP Event.isLive = 3 ∧ after.countP p.triggers = 1 := by
  intro d p events s once again
  have hp : p.Known := ⟨_, rfl⟩
  have he : ∀ e ∈ events, e.isLive = true → e.request?.isSome := by decide
  obtain ⟨honce, hagain, hreturns⟩ := reroll_replaces .standard p [] events s
  obtain ⟨hwarnings, _, _, _⟩ := honce _ rfl
  refine ⟨hp, he, hwarnings, rfl, rfl, ?_⟩
  rcases (hreturns hp he).2 with ⟨after, hafter⟩ | ⟨err, herr⟩
  · obtain ⟨_, _, _, _, hlive, htriggers⟩ := hagain after hafter
    exact ⟨after, hafter, rfl, hlive, htriggers⟩
  · cases herr

end Evaluation

end Dice
