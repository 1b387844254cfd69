import Dice.Proofs.Evaluation.Finalization
import Dice.Proofs.Evaluation.Rerolling

/-!
# Dice.Proofs.Evaluation.Conservation

How many dice there are, and how many are drawn.

* `Modifier.limit`, `Modifier.explodes` : how many dice a modifier draws for one, and if they stay
  beside it.
* `Supplied limits m before after drawn` : the dice in play grow by what a modifier draws if they
  explode, and else their number stands.
* `supplied_generation` : so it is for every modifier of the first phase.
* `Bounds`, `Supplied.bounds` : how many dice there can be, and how many can have been drawn.
* `live_late` : no die in play comes or goes after the first phase, if none are counted.
* `drawBound`, `dice_conserved` : the dice of a roll, and the requests made for it.
-/

namespace Dice

namespace Event

def isExplosion (e : Event) : Bool :=
  e.origin = .explosion

def isDroppedDie (e : Event) : Bool :=
  e.isDropped && e.isDie

theorem isLive_drawn {d : Die} (h : d.range?.isSome) (origin : Origin) (value : Int) :
    (drawn d origin value).isLive = true := by
  rw [isLive, Evaluation.isDie_drawn h]
  rfl

theorem isLive_of_isKeptDie {e : Event} (h : e.isKeptDie = true) :
    e.isLive = true ∧ e.dropped.isLive = true := by
  rw [isKeptDie, Bool.and_eq_true, isKept_iff] at h
  have hdropped : e.dropped.isLive = e.isDie := rfl
  exact ⟨by simp [isLive, isDiscarded, h], hdropped.trans h.2⟩

/-- A die in play is kept or dropped. -/
theorem countP_isLive (events : List Event) :
    events.countP isLive = events.countP isKeptDie + events.countP isDroppedDie := by
  induction events with
  | nil => rfl
  | cons e events ih =>
    have hone : (if e.isLive then 1 else 0) =
        (if e.isKeptDie then 1 else 0) + (if e.isDroppedDie then 1 else 0) := by
      cases hs : e.status <;> cases hd : e.isDie <;>
        simp [isLive, isKeptDie, isDroppedDie, isKept, isDropped, isDiscarded, hs, hd]
    simp only [List.countP_cons, ih, hone]
    omega

end Event

namespace Modifier

/-- The most values drawn for one die. -/
def limit (limits : Limits) : Modifier → Nat
  | .onMatch t _ => t.limit limits
  | _ => 0

/-- The extra dice stay in play beside the die that they are drawn for. -/
def explodes : Modifier → Bool
  | .onMatch .explode _ => true
  | _ => false

theorem limit_of_explodes {limits : Limits} {m : Modifier} (h : m.explodes = true) :
    m.limit limits = limits.explosions := by
  cases m with
  | onMatch t p =>
    cases t with
    | explode => rfl
    | _ => cases h
  | _ => cases h

end Modifier

/-- How many of the values drawn stay in play. -/
def Trigger.extra (t : Trigger) (c : Chain) : Nat :=
  if t = .explode then c.draws.length else 0

namespace Evaluation

open Draws (Returns)

/-! ## What is made of chains -/

variable {p : Point} {limits : Limits} {t : Trigger} {limit : Nat} {c : Chain} {chains : List Chain}

theorem live_made (ht : t.phase = .generation) (h : c.Maximal p limit) :
    (t.settle c :: t.adds c).countP Event.isLive = (if c.event.isLive then 1 else 0) + t.extra c := by
  cases t with
  | rerollOnce => exact live_again (.inl rfl) h
  | rerollWhile => exact live_again (.inr rfl) h
  | explode =>
    have hall : (c.drawn .explosion).countP Event.isLive = c.draws.length := by
      rw [List.countP_eq_length.mpr, Chain.drawn, List.length_map]
      intro x hx
      obtain ⟨v, hv, rfl⟩ := List.mem_map.mp hx
      have hfaced := h.faced (List.ne_nil_of_mem hv)
      rw [Event.isSome_request?] at hfaced
      exact Event.isLive_drawn hfaced _ _
    rw [settle_explode, Trigger.adds, List.countP_cons, hall, Nat.add_comm]
    rfl
  | compound =>
    by_cases hnil : c.draws = []
    · simp [Trigger.settle, Trigger.adds, Trigger.extra, hnil, List.countP_singleton]
    · have hfaced := h.faced hnil
      rw [Event.isSome_request?] at hfaced
      have hsettle : Trigger.compound.settle c = c.event.discard := by simp [Trigger.settle, hnil]
      have hnone : ((c.drawn .compound).map Event.discard).countP Event.isLive = 0 := by
        simp [List.countP_eq_zero, Event.isLive_discard]
      have hsum : c.sum.isLive = true := Event.isLive_drawn hfaced _ _
      rw [Trigger.adds, if_neg hnil, hsettle, List.countP_cons, List.countP_append, hnone,
        Event.isLive_discard, List.countP_singleton, hsum, h.isLive_of_draws hnil]
      rfl
  | _ => cases ht

theorem isExplosion_of_mem_adds {x : Event} (hx : x ∈ t.adds c) :
    x.isExplosion = decide (t = .explode) := by
  have hagain (h : x ∈ discardAllButLast (c.drawn .reroll)) : x.isExplosion = false := by
    obtain ⟨y, hy, hxy⟩ := mem_discardAllButLast h
    obtain ⟨v, _, rfl⟩ := List.mem_map.mp hy
    rcases hxy with rfl | rfl <;> rfl
  cases t with
  | explode =>
    obtain ⟨v, _, rfl⟩ := List.mem_map.mp hx
    rfl
  | compound =>
    rw [Trigger.adds] at hx
    split at hx
    · cases hx
    · rcases List.mem_append.mp hx with hx | hx
      · obtain ⟨y, hy, rfl⟩ := List.mem_map.mp hx
        obtain ⟨v, _, rfl⟩ := List.mem_map.mp hy
        rfl
      · rw [List.mem_singleton.mp hx]
        rfl
  | _ => exact hagain hx

theorem explosions_made (t : Trigger) (c : Chain) :
    (t.settle c :: t.adds c).countP Event.isExplosion =
      (if c.event.isExplosion then 1 else 0) + t.extra c := by
  have hsettle : (t.settle c).isExplosion = c.event.isExplosion := by
    unfold Trigger.settle
    split <;> rfl
  have hadds : (t.adds c).countP Event.isExplosion = t.extra c := by
    unfold Trigger.extra
    split
    · rename_i ht
      rw [List.countP_eq_length.mpr fun x hx => by simp [isExplosion_of_mem_adds hx, ht], ht]
      exact List.length_map _
    · rename_i ht
      rw [List.countP_eq_zero.mpr fun x hx => by simp [isExplosion_of_mem_adds hx, ht]]
  rw [List.countP_cons, hsettle, hadds, Nat.add_comm]

theorem length_draws_le (h : ∀ c ∈ chains, c.Maximal p limit) :
    (chains.flatMap Chain.draws).length ≤ limit * chains.countP (·.event.isLive) := by
  induction chains with
  | nil => simp
  | cons c chains ih =>
    obtain ⟨hc, hrest⟩ := List.forall_mem_cons.mp h
    have hle := ih hrest
    rw [List.flatMap_cons, List.length_append, List.countP_cons, Nat.mul_add, Nat.add_comm]
    refine Nat.add_le_add hle ?_
    cases hl : c.event.isLive with
    | false => simp [hc.idle hl]
    | true => simpa using hc.length_le

theorem sum_extra (t : Trigger) (chains : List Chain) :
    (chains.map t.extra).sum = if t = .explode then (chains.flatMap Chain.draws).length else 0 := by
  induction chains with
  | nil => simp
  | cons c chains ih =>
    rw [List.map_cons, List.sum_cons, ih, List.flatMap_cons, List.length_append, Trigger.extra]
    split <;> rfl

/-! ## The first phase -/

/-- A die in play has at most so many values drawn for it, and each of them stays in play if dice
explode. -/
structure Supplied (limits : Limits) (m : Modifier) (before after : List Event) (drawn : Nat) :
    Prop where
  drawn_le : drawn ≤ m.limit limits * before.countP Event.isLive
  live : after.countP Event.isLive =
    before.countP Event.isLive + if m.explodes then drawn else 0
  explosions : after.countP Event.isExplosion =
    before.countP Event.isExplosion + if m.explodes then drawn else 0

variable {m : Modifier} {pool : List Bool} {before after : List Event} {answers : List Int}

theorem supplied_generation (hm : m.phase = .generation)
    (h : Returns (applyModifier limits m pool before) answers after) :
    Supplied limits m before after answers.length := by
  cases m with
  | onMatch t p =>
    have hexplodes (n : Nat) : (if (Modifier.onMatch t p).explodes then n else 0) =
        if t = .explode then n else 0 := by
      cases t <;> rfl
    rw [applyModifier, applyTrigger_eq limits hm] at h
    obtain ⟨first, chains, rest, rfl, hchains, hdone⟩ := Draws.returns_bind_iff.mp h
    obtain ⟨rfl, rfl⟩ := Draws.returns_done_iff.mp hdone
    obtain ⟨rfl, hmaximal, rfl⟩ := returns_drawChains hchains
    have hlive := countP_made_add fun c hc => live_made hm (hmaximal c hc)
    have hexplosions := countP_made_add fun c (_ : c ∈ chains) => explosions_made t c
    rw [sum_extra] at hlive hexplosions
    refine ⟨?_, ?_, ?_⟩
    · rw [List.append_nil, List.countP_map]
      exact length_draws_le hmaximal
    · rw [List.append_nil, hexplodes, hlive, List.countP_map]
      rfl
    · rw [List.append_nil, hexplodes, hexplosions, List.countP_map]
      rfl
  | _ => cases hm

/-- The most dice in play that there can be, and the most draws that there can have been. -/
structure Bounds where
  dice : Nat
  draws : Nat

def Bounds.next (limits : Limits) (b : Bounds) (m : Modifier) : Bounds where
  dice := if m.explodes then b.dice * (1 + limits.explosions) else b.dice
  draws := b.draws + m.limit limits * b.dice

theorem Supplied.bounds {drawn : Nat} (h : Supplied limits m before after drawn) {b : Bounds}
    (hb : before.countP Event.isLive ≤ b.dice) :
    after.countP Event.isLive ≤ (b.next limits m).dice ∧
      b.draws + drawn ≤ (b.next limits m).draws := by
  have hdrawn : drawn ≤ m.limit limits * b.dice :=
    h.drawn_le.trans (Nat.mul_le_mul_left _ hb)
  refine ⟨?_, Nat.add_le_add_left hdrawn b.draws⟩
  rw [h.live, Bounds.next]
  cases hm : m.explodes with
  | false => simpa using hb
  | true =>
    rw [Modifier.limit_of_explodes hm] at hdrawn
    rw [if_pos rfl, if_pos rfl, Nat.mul_add, Nat.mul_one, Nat.mul_comm]
    exact Nat.add_le_add hb hdrawn

/-- Dice in play come in by explosions only, and there is a bound to what is drawn. -/
theorem supplied_applyAll {modifiers : List Modifier} (hm : ∀ m ∈ modifiers, m.phase = .generation)
    {pool : Option (List Bool)} (h : Returns (applyAll limits modifiers pool before) answers after)
    {b : Bounds} (hb : before.countP Event.isLive ≤ b.dice) :
    after.countP Event.isLive + before.countP Event.isExplosion =
        before.countP Event.isLive + after.countP Event.isExplosion ∧
      b.draws + answers.length ≤ (modifiers.foldl (Bounds.next limits) b).draws := by
  induction modifiers generalizing pool before answers b with
  | nil =>
    obtain ⟨rfl, rfl⟩ := Draws.returns_done_iff.mp h
    exact ⟨rfl, Nat.le_refl _⟩
  | cons m modifiers ih =>
    obtain ⟨hfirst, hrest⟩ := List.forall_mem_cons.mp hm
    obtain ⟨first, mid, rest, rfl, hmid, hlast⟩ := Draws.returns_bind_iff.mp h
    have hsupplied := supplied_generation hfirst hmid
    obtain ⟨hdice, hdraws⟩ := hsupplied.bounds hb
    obtain ⟨hlive, hbound⟩ := ih hrest hlast hdice
    have hl := hsupplied.live
    have he := hsupplied.explosions
    rw [List.length_append, List.foldl_cons]
    constructor <;> omega

/-! ## The other phases -/

/-- Only dice that count are dropped, and a die that is dropped is in play as before. -/
theorem live_dropPlaces {dropped : List Nat} {events : List Event}
    (h : ∀ i ∈ dropped, ∃ e, events[i]? = some e ∧ e.isKeptDie = true) :
    (dropPlaces dropped events).countP Event.isLive = events.countP Event.isLive := by
  have hfst : events.countP Event.isLive =
      events.zipIdx.countP fun item => item.1.isLive := by
    conv_lhs => rw [← List.zipIdx_map_fst 0 events, List.countP_map]
    rfl
  rw [dropPlaces, List.countP_map, hfst]
  refine List.countP_congr fun item hitem => ?_
  obtain ⟨e, i⟩ := item
  simp only [Function.comp_apply]
  split
  · rename_i hi
    obtain ⟨e', he', hkept⟩ := h i (by simpa using hi)
    rw [List.mem_zipIdx_iff_getElem?.mp hitem] at he'
    cases he'
    obtain ⟨hlive, hdropped⟩ := Event.isLive_of_isKeptDie hkept
    rw [hlive, hdropped]
  · rfl

theorem live_late (hm : m.phase ≠ .generation) (hc : m.count? = none)
    (h : Returns (applyModifier limits m pool before) answers after) :
    after.countP Event.isLive = before.countP Event.isLive := by
  cases m with
  | keep n highest =>
    obtain ⟨_, rfl⟩ := Draws.returns_done_iff.mp h
    exact live_dropPlaces fun i hi => isKeptDie_of_mem_ranking (List.mem_of_mem_drop hi)
  | drop n highest =>
    obtain ⟨_, rfl⟩ := Draws.returns_done_iff.mp h
    exact live_dropPlaces fun i hi => isKeptDie_of_mem_ranking (List.mem_of_mem_take hi)
  | onMatch t p =>
    cases t with
    | success => cases hc
    | failure => cases hc
    | general => exact absurd h Draws.not_returns_fail
    | _ => exact absurd rfl hm
  | adjust sign n =>
    cases sign with
    | known sign =>
      obtain ⟨_, rfl⟩ := Draws.returns_done_iff.mp h
      exact List.countP_append
    | unknown found => exact absurd h Draws.not_returns_fail
  | general => exact absurd h Draws.not_returns_fail

/-- Nothing is drawn, and if no dice are counted, none leaves the play. -/
theorem live_applyAll {modifiers : List Modifier} (hm : ∀ m ∈ modifiers, m.phase ≠ .generation)
    {pool : Option (List Bool)} (h : Returns (applyAll limits modifiers pool before) answers after) :
    answers = [] ∧ ((∀ m ∈ modifiers, m.count? = none) →
      after.countP Event.isLive = before.countP Event.isLive) := by
  induction modifiers generalizing pool before answers with
  | nil =>
    obtain ⟨rfl, rfl⟩ := Draws.returns_done_iff.mp h
    exact ⟨rfl, fun _ => rfl⟩
  | cons m modifiers ih =>
    obtain ⟨hfirst, hrest⟩ := List.forall_mem_cons.mp hm
    obtain ⟨first, mid, rest, rfl, hmid, hlast⟩ := Draws.returns_bind_iff.mp h
    obtain ⟨rfl, hlive⟩ := ih hrest hlast
    obtain ⟨rfl, _⟩ := returns_reckoning hfirst hmid
    refine ⟨rfl, fun hc => ?_⟩
    obtain ⟨hcfirst, hcrest⟩ := List.forall_mem_cons.mp hc
    rw [hlive hcrest, live_late hfirst hcfirst hmid]

/-! ## Rolls -/

theorem phased_through_generation (modifiers : List Modifier) :
    (phased modifiers).filter (·.phase.number ≤ Phase.generation.number) =
      modifiers.filter (·.phase = .none) ++ modifiers.filter (·.phase = .generation) := by
  rw [phased_eq]
  simp only [List.filter_append, filter_through (p := .generation) (q := .none) (by decide),
    filter_through (p := .generation) (q := .generation) (by decide),
    filter_beyond (p := .generation) (q := .selection) (by decide),
    filter_beyond (p := .generation) (q := .finalization) (by decide), List.append_nil]

/-- Nothing comes of modifiers without a phase. -/
theorem returns_poolThrough_generation {count : Int} {die : Node} {modifiers : List Modifier}
    {events : List Event}
    (h : Returns (poolThrough limits count die .generation modifiers) answers events) :
    ∃ d first rest, d.range?.isSome ∧ answers = first ++ rest ∧ first.length = count.toNat ∧
      Returns (applyAll limits (modifiers.filter (·.phase = .generation)) none
        (first.map (.drawn d .initial))) rest events := by
  unfold poolThrough at h
  split at h
  · exact absurd h Draws.not_returns_fail
  · rename_i d hd
    obtain ⟨first, drawn, rest, rfl, hdraw, happly⟩ := Draws.returns_bind_iff.mp h
    obtain ⟨rfl, hlen⟩ := returns_drawPool hdraw
    rw [List.reverse_nil, List.nil_append, phased_through_generation] at happly
    refine ⟨d, first, rest, isSome_range_of_poolDie? hd, rfl, hlen, ?_⟩
    cases hnone : modifiers.filter (·.phase = .none) with
    | nil => rwa [hnone] at happly
    | cons m others =>
      rw [hnone, List.cons_append, applyAll_cons] at happly
      obtain ⟨_, _, _, _, hfirst, _⟩ := Draws.returns_bind_iff.mp happly
      have hm : m ∈ modifiers.filter (·.phase = .none) := hnone ▸ List.mem_cons_self
      exact absurd hfirst (not_returns_none (of_decide_eq_true (List.mem_filter.mp hm).2))

/-- How many draws there can be: one for each die at first, and what the modifiers of the first phase
may draw for each of the dice that there can be by then. -/
def drawBound (limits : Limits) (count : Nat) (modifiers : List Modifier) : Nat :=
  ((modifiers.filter (·.phase = .generation)).foldl (Bounds.next limits) ⟨count, count⟩).draws

theorem countP_initial {d : Die} (hd : d.range?.isSome) (values : List Int) :
    (values.map (Event.drawn d .initial)).countP Event.isLive = values.length ∧
      (values.map (Event.drawn d .initial)).countP Event.isExplosion = 0 := by
  constructor
  · rw [List.countP_eq_length.mpr, List.length_map]
    intro x hx
    obtain ⟨v, _, rfl⟩ := List.mem_map.mp hx
    exact Event.isLive_drawn hd _ _
  · rw [List.countP_eq_zero]
    intro x hx
    obtain ⟨v, _, rfl⟩ := List.mem_map.mp hx
    exact Bool.false_ne_true

theorem countP_poolThrough {count : Int} {die : Node} {modifiers : List Modifier}
    {events : List Event}
    (h : Returns (poolThrough limits count die .generation modifiers) answers events) :
    events.countP Event.isLive = count.toNat + events.countP Event.isExplosion ∧
      answers.length ≤ drawBound limits count.toNat modifiers := by
  obtain ⟨d, first, rest, hd, rfl, hfirst, happly⟩ := returns_poolThrough_generation h
  obtain ⟨hlive, hexplosions⟩ := countP_initial hd first
  rw [hfirst] at hlive
  have hphase : ∀ m ∈ modifiers.filter (·.phase = .generation), m.phase = .generation := by simp
  obtain ⟨hdice, hdraws⟩ := supplied_applyAll hphase happly
    (b := ⟨count.toNat, count.toNat⟩) (Nat.le_of_eq hlive)
  rw [hlive, hexplosions, Nat.add_zero] at hdice
  rw [List.length_append, hfirst]
  exact ⟨hdice, hdraws⟩

variable {σ : Type} [RandomSource σ]

/-- Once all dice are there, those that are not discarded are as many as were asked for and as have
exploded. If none are counted, as many are kept or dropped in the end. The requests are no more than
the limits allow for. -/
theorem dice_conserved {count : Int} {die : Node} {modifiers : List Node} {s : σ} {e : Evaluation}
    (h : (((Node.pool count die modifiers).evaluate limits).run s).result = .ok e) :
    ∃ ms events, modifiersOf modifiers = .ok ms ∧
      ((poolThrough limits count die .generation ms).run s).result = .ok events ∧
      events.countP Event.isLive = count.toNat + events.countP Event.isExplosion ∧
      ((∀ m ∈ ms, m.count? = none) →
        e.events.countP Event.isKeptDie + e.events.countP Event.isDroppedDie =
          events.countP Event.isLive) ∧
      (((Node.pool count die modifiers).evaluate limits).run s).requests.length ≤
        drawBound limits count.toNat ms := by
  rw [Node.evaluate] at h ⊢
  obtain ⟨_, ms, _, _, _, hms, _⟩ := returns_evaluatePool (Draws.returns_answersTo h).1
  obtain rfl := eq_map_of_modifiersOf hms
  let later := ms.filter (·.phase = .selection) ++ ms.filter (·.phase = .finalization)
  have hsplit : phased ms =
      (phased ms).filter (·.phase.number ≤ Phase.generation.number) ++ later := by
    rw [phased_through_generation, phased_eq, List.append_assoc]
  have hlater : ∀ m ∈ later, m ∈ ms ∧ m.phase ≠ .generation := by
    intro m hm
    simp only [later, List.mem_append, List.mem_filter, decide_eq_true_eq] at hm
    rcases hm with ⟨hmem, hphase⟩ | ⟨hmem, hphase⟩
    · exact ⟨hmem, by rw [hphase]; decide⟩
    · exact ⟨hmem, by rw [hphase]; decide⟩
  rw [evaluatePool_through (by decide) limits count die hsplit, Draws.run_bind] at h ⊢
  obtain ⟨events, hevents, hafter⟩ := Run.exists_of_andThen_ok h
  obtain ⟨hpool, hdrawn⟩ := Draws.returns_answersTo hevents
  obtain ⟨hreturns, hlate⟩ := Draws.returns_answersTo hafter
  obtain ⟨hdice, hbound⟩ := countP_poolThrough hpool
  obtain ⟨answers, final, more, hnone, hfinal, hdone⟩ := Draws.returns_bind_iff.mp hreturns
  obtain ⟨rfl, rfl⟩ := Draws.returns_done_iff.mp hdone
  obtain ⟨rfl, hlive⟩ := live_applyAll (fun m hm => (hlater m hm).2) hfinal
  refine ⟨ms, events, hms, hevents, hdice, fun hc => ?_, ?_⟩
  · rw [← Event.countP_isLive]
    exact hlive fun m hm => hc m (hlater m hm).1
  · -- nothing is asked for after the first phase
    rw [Run.andThen_ok hevents, Run.after, List.length_append, ← hdrawn, ← hlate, hnone]
    exact hbound

/-- `3d6!=6ro=1r=1kh2+3` with at most two extra dice each: a six explodes twice, then a one and the
last explosion are drawn again, and as the first of them is a one again, ten more are drawn for it,
which is the limit of rerolls. So there are five dice to keep two of. -/
theorem dice_conserved_redrawn :
    let limits : Limits := ⟨2, 1⟩
    let again : Modifier := .onMatch .rerollWhile ⟨.known .equal, 1⟩
    let ms : List Modifier := [.onMatch .explode ⟨.known .equal, 6⟩,
      .onMatch .rerollOnce ⟨.known .equal, 1⟩, again, .keep 2 true, .adjust (.known .plus) 3]
    let n : Node := .pool 3 (.die (.fresh (.sided 6))) (ms.map .modifier)
    let run := (n.evaluate limits).run
      (Source.ofValues ([6, 1, 4] ++ [6, 1] ++ [1, 5] ++ List.replicate 10 1))
    ∃ e, run.result = .ok e ∧
      e.events.countP Event.isKeptDie + e.events.countP Event.isDroppedDie = 5 ∧
      run.warnings = [.rerollLimit 10 again 1] ∧
      run.requests.length = 17 ∧ run.requests.length ≤ drawBound limits 3 ms ∧
      drawBound limits 3 ms = 108 := by
  intro limits again ms n run
  have hrun : ∃ e, run.result = .ok e := ⟨_, rfl⟩
  obtain ⟨e, he⟩ := hrun
  obtain ⟨ms', events, hms, hevents, _, hdice, hbound⟩ := dice_conserved he
  rw [modifiersOf_map] at hms
  cases hms
  cases hevents
  have hcount : ∀ m ∈ ms, m.count? = none := by simp [ms, again, Modifier.count?]
  exact ⟨e, he, hdice hcount, rfl, rfl, hbound, rfl⟩

end Evaluation

end Dice
