import Mathlib.Algebra.GroupWithZero.Nat
import Mathlib.Data.List.Perm.Basic
import Dice.Proofs.Evaluation.Sum

/-!
# Dice.Proofs.Evaluation.Chains

The modifiers of the first phase as chains of values, drawn first and made into events afterwards.

* `Chain` : an event of a pool, with the values drawn for it.
* `Chain.Maximal p limit c` : the values go on as long as they meet a condition, up to a limit.
* `drawChains` : one chain for each event of a pool, with what is remarked on it.
* `Trigger.limit`, `Trigger.settle`, `Trigger.adds`, `Trigger.remarks` : what the modifiers make of
  a chain.
* `applyTrigger_eq` : drawing chains is all that they do with a source.
* `returns_drawChains` : the chains drawn are maximal, and hold all answers in order.
* `countP_made_add`, `countP_made` : the events that are made of chains, counted chain by chain.
-/

namespace Dice

/-- An event without a die is of no particular kind. -/
def Event.ownDie (e : Event) : Die :=
  e.die.getD (.fresh .general)

theorem Event.isLive_discard (e : Event) : e.discard.isLive = false := by
  simp [isLive, isDiscarded, discard]

/-- How a source is asked for one more of the same die. -/
def Event.request? (e : Event) : Option Request :=
  e.ownDie.range?.map Range.request

theorem Event.isSome_request? (e : Event) : e.request?.isSome = e.ownDie.range?.isSome :=
  Option.isSome_map

structure Chain where
  event : Event
  draws : List Int

namespace Chain

/-- The value of the die itself comes first. -/
def values (c : Chain) : List Int :=
  c.event.value :: c.draws

def last (c : Chain) : Int :=
  c.draws.getLastD c.event.value

/-- The values drawn, as events of the die they were drawn for. -/
def drawn (c : Chain) (origin : Origin) : List Event :=
  c.draws.map (.drawn c.event.ownDie origin)

/-- One event in place of the die and all that was drawn for it. -/
def sum (c : Chain) : Event :=
  .drawn c.event.ownDie .compound c.values.sum

def requests (c : Chain) : List (Option Request) :=
  List.replicate c.draws.length c.event.request?

/-- Every value but the last one meets the condition, and the last one does not unless the limit is
reached. Nothing is drawn for what is no die in play, or has no faces. -/
structure Maximal (p : Point) (limit : Nat) (c : Chain) : Prop where
  idle : c.event.isLive = false → c.draws = []
  faced : c.draws ≠ [] → c.event.request?.isSome
  length_le : c.draws.length ≤ limit
  meets : ∀ v ∈ c.values.dropLast, p.meets v = true
  stops : c.event.isLive = true → c.draws.length < limit → p.meets c.last = false

theorem Maximal.isLive_of_draws {p : Point} {limit : Nat} {c : Chain} (h : c.Maximal p limit)
    (hne : c.draws ≠ []) : c.event.isLive = true := by
  rw [← Bool.not_eq_false]
  exact fun hidle => hne (h.idle hidle)

/-- Only the limit has ended the chain. -/
def isCut (p : Point) (limit : Nat) (c : Chain) : Bool :=
  c.event.isLive && c.draws.length = limit && p.meets c.last

theorem isCut_idle {p : Point} {limit : Nat} {c : Chain} (h : c.event.isLive = false) :
    c.isCut p limit = false := by
  simp [isCut, h]

end Chain

namespace Trigger

/-- The most values that are drawn for one die. -/
def limit (limits : Limits) : Trigger → Nat
  | .rerollOnce => 1
  | .rerollWhile => Evaluation.rerollLimit
  | .explode => limits.explosions
  | .compound => limits.compounds
  | .success | .failure | .general => 0

/-- Only a die that explodes stands beside the dice drawn for it. -/
def settle (t : Trigger) (c : Chain) : Event :=
  if t = .explode ∨ c.draws = [] then c.event else c.event.discard

def adds : Trigger → Chain → List Event
  | .explode, c => c.drawn .explosion
  | .compound, c => if c.draws = [] then [] else (c.drawn .compound).map .discard ++ [c.sum]
  | _, c => Evaluation.discardAllButLast (c.drawn .reroll)

def remark? (limits : Limits) (p : Point) : Trigger → Chain → Option Warning
  | .rerollWhile, c =>
    some (.rerollLimit Evaluation.rerollLimit (.onMatch .rerollWhile p) c.last)
  | .explode, _ => some (.explosionLimit limits.explosions (.onMatch .explode p))
  | .compound, _ => some (.compoundLimit limits.compounds (.onMatch .compound p))
  | _, _ => none

/-- There is nothing to remark on a chain that has ended by itself. -/
def remarks (limits : Limits) (p : Point) (t : Trigger) (c : Chain) : List Warning :=
  if c.isCut p (t.limit limits) then (t.remark? limits p c).toList else []

end Trigger

namespace Evaluation

open Draws (Returns announce)

/-! ## Chains -/

def drawValue (d : Die) : Draws Int :=
  match d.range? with
  | none => .fail (.unknownDie (.die d))
  | some range => .draw range.request .done

theorem drawDie_eq (d : Die) (origin : Origin) :
    drawDie d origin = (drawValue d).bind fun v => .done (.drawn d origin v) := by
  unfold drawDie drawValue
  cases d.range? with
  | none => rfl
  | some range => rfl

/-- Values drawn as long as the last one meets a condition, up to a limit. -/
def drawValues (p : Point) (d : Die) : Nat → Int → Draws (List Int)
  | left, last =>
    match p.holds last with
    | .error e => .fail (.unknownRelation e)
    | .ok false => .done []
    | .ok true =>
      match left with
      | 0 => .done []
      | left + 1 => (drawValue d).bind fun v => (drawValues p d left v).bind fun draws =>
          .done (v :: draws)

/-- Only a die in play has values drawn for it. -/
def drawsFor (p : Point) (limit : Nat) (e : Event) : Draws (List Int) :=
  if e.isLive then drawValues p e.ownDie limit e.value else .done []

/-- The remarks on a chain come before the next chain is drawn. -/
def drawChains (p : Point) (limit : Nat) (remarks : Chain → List Warning) :
    List Event → Draws (List Chain)
  | [] => .done []
  | e :: events => (drawsFor p limit e).bind fun draws =>
      announce (remarks ⟨e, draws⟩) ((drawChains p limit remarks events).bind fun chains =>
        .done (⟨e, draws⟩ :: chains))

/-! ## The modifiers -/

theorem chain_eq (p : Point) (d : Die) (origin : Origin) (warning : Int → Warning) (left : Nat)
    (last : Int) (drawn : List Event) :
    chain p (drawDie d origin) warning left last drawn =
      (drawValues p d left last).bind fun draws =>
        announce (if draws.length = left ∧ p.meets (draws.getLastD last) = true then
            [warning (draws.getLastD last)] else [])
          (.done (drawn.reverse ++ draws.map (.drawn d origin))) := by
  induction left generalizing last drawn with
  | zero =>
    rw [chain, drawValues]
    cases h : p.holds last with
    | error e => rfl
    | ok hit => cases hit <;> simp [Point.meets, h]
  | succ left ih =>
    rw [chain, drawValues]
    cases h : p.holds last with
    | error e => rfl
    | ok hit =>
      cases hit with
      | false => simp
      | true =>
        simp only [drawDie_eq, Draws.bind_assoc, Draws.done_bind]
        refine congrArg _ (funext fun v => ?_)
        rw [← drawDie_eq, ih]
        refine congrArg _ (funext fun draws => ?_)
        simp only [List.reverse_cons, List.append_assoc, List.singleton_append, List.map_cons,
          List.length_cons, Nat.add_right_cancel_iff, List.getLastD_cons]
        rfl

theorem drawsFor_idle (p : Point) (limit : Nat) {e : Event} (h : e.isLive = false) :
    drawsFor p limit e = .done [] := by
  simp [drawsFor, h]

theorem drawsFor_live (p : Point) (limit : Nat) {e : Event} (h : e.isLive = true) :
    drawsFor p limit e = drawValues p e.ownDie limit e.value := by
  simp [drawsFor, h]

theorem remarks_idle (limits : Limits) (p : Point) (t : Trigger) {e : Event}
    (h : e.isLive = false) : t.remarks limits p ⟨e, []⟩ = [] := by
  rw [Trigger.remarks, Chain.isCut_idle h]
  rfl

theorem settle_replaced {t : Trigger} (h : t ≠ .explode) :
    t.settle = fun c => if c.draws = [] then c.event else c.event.discard := by
  funext c
  simp [Trigger.settle, h]

theorem settle_explode : Trigger.explode.settle = Chain.event := by
  funext c
  simp [Trigger.settle]

theorem settle_nil (t : Trigger) (e : Event) : t.settle ⟨e, []⟩ = e := by
  simp [Trigger.settle]

theorem adds_nil (t : Trigger) (e : Event) : t.adds ⟨e, []⟩ = [] := by
  cases t <;> rfl

/-- Handling the dice in order is drawing their chains, if each of them is handled so. -/
theorem eachLive_eq (limits : Limits) (t : Trigger) (p : Point)
    {handle : Event → Die → Draws (Event × List Event)}
    (h : ∀ e d, e.isLive = true → e.ownDie = d → handle e d =
      (drawValues p d (t.limit limits) e.value).bind fun draws =>
        announce (t.remarks limits p ⟨e, draws⟩) (.done (t.settle ⟨e, draws⟩, t.adds ⟨e, draws⟩)))
    (events handled added : List Event) :
    eachLive handle events handled added =
      (drawChains p (t.limit limits) (t.remarks limits p) events).bind fun chains =>
        .done (handled.reverse ++ chains.map t.settle ++
          (added.reverse ++ chains.flatMap t.adds)) := by
  induction events generalizing handled added with
  | nil => simp [eachLive, drawChains]
  | cons e events ih =>
    rw [drawChains]
    cases hl : e.isLive with
    | false =>
      rw [eachLive, hl, drawsFor_idle _ _ hl, Draws.done_bind, remarks_idle limits p t hl,
        Draws.announce_nil, Draws.bind_assoc]
      simp [ih, settle_nil, adds_nil]
    | true =>
      obtain ⟨d, hd, _⟩ := Event.exists_die_of_isLive hl
      have hown : e.ownDie = d := by rw [Event.ownDie, hd]; rfl
      rw [eachLive, hl, hd, drawsFor_live _ _ hl, hown]
      simp [h e d hl hown, ih, Draws.bind_assoc, Draws.announce_bind]

/-- A comparison that is known for one value is known for all. -/
theorem drawValues_zero {p : Point} {v : Int} {hit : Bool} (h : p.holds v = .ok hit) (d : Die)
    (last : Int) : drawValues p d 0 last = .done [] := by
  have hknown : p.Known := by
    cases hr : p.relation with
    | known relation => exact ⟨relation, hr⟩
    | unknown found => rw [Point.holds, hr] at h; cases h
  obtain ⟨hit', hlast⟩ := hknown.holds last
  rw [drawValues, hlast]
  cases hit' <;> rfl

theorem total_drawn (d : Die) (origin : Origin) (draws : List Int) :
    Event.total (draws.map (.drawn d origin)) = draws.sum := by
  rw [total_eq_sum, List.map_map]
  exact congrArg List.sum (List.map_id draws)

theorem remarks_live (limits : Limits) (p : Point) (t : Trigger) {w : Warning} {e : Event}
    {draws : List Int} (h : e.isLive = true) (hw : t.remark? limits p ⟨e, draws⟩ = some w) :
    t.remarks limits p ⟨e, draws⟩ =
      if draws.length = t.limit limits ∧ p.meets (draws.getLastD e.value) = true then [w] else [] := by
  simp [Trigger.remarks, Chain.isCut, Chain.last, h, hw]

theorem applyTrigger_eq (limits : Limits) {t : Trigger} (ht : t.phase = .generation) (p : Point)
    (pool : List Bool) (events : List Event) :
    applyTrigger limits t p pool events =
      (drawChains p (t.limit limits) (t.remarks limits p) events).bind fun chains =>
        .done (chains.map t.settle ++ chains.flatMap t.adds) := by
  cases t with
  | rerollOnce =>
    refine eachLive_eq limits .rerollOnce p ?_ events [] []
    intro e d hl hd
    rw [Trigger.limit, drawValues]
    cases hhit : p.holds e.value with
    | error err => rfl
    | ok hit =>
      cases hit with
      | false => simp [Trigger.remarks, Trigger.remark?, settle_nil, adds_nil]
      | true =>
        simp only [drawValues_zero hhit, drawDie_eq, Draws.bind_assoc, Draws.done_bind]
        refine congrArg _ (funext fun v => ?_)
        simp [Trigger.remarks, Trigger.remark?, Trigger.settle, Trigger.adds, Chain.drawn, hd,
          discardAllButLast]
  | rerollWhile =>
    refine eachLive_eq limits .rerollWhile p ?_ events [] []
    intro e d hl hd
    rw [chain_eq, Draws.bind_assoc]
    refine congrArg _ (funext fun draws => ?_)
    rw [remarks_live limits p .rerollWhile hl rfl, Draws.announce_bind]
    refine congrArg _ ?_
    cases draws with
    | nil => simp [settle_nil, adds_nil]
    | cons v draws => simp [Trigger.settle, Trigger.adds, Chain.drawn, hd]
  | explode =>
    refine eachLive_eq limits .explode p ?_ events [] []
    intro e d hl hd
    rw [chain_eq, Draws.bind_assoc]
    refine congrArg _ (funext fun draws => ?_)
    rw [remarks_live limits p .explode hl rfl, Draws.announce_bind]
    refine congrArg _ ?_
    simp [Trigger.settle, Trigger.adds, Chain.drawn, hd]
  | compound =>
    refine eachLive_eq limits .compound p ?_ events [] []
    intro e d hl hd
    rw [chain_eq, Draws.bind_assoc]
    refine congrArg _ (funext fun draws => ?_)
    rw [remarks_live limits p .compound hl rfl, Draws.announce_bind]
    refine congrArg _ ?_
    cases draws with
    | nil => simp [settle_nil, adds_nil]
    | cons v draws =>
      simp only [List.reverse_nil, List.nil_append, Draws.done_bind, compoundSum, total_drawn]
      simp [Trigger.settle, Trigger.adds, Chain.drawn, Chain.sum, Chain.values, hd]
  | success => cases ht
  | failure => cases ht
  | general => cases ht

/-! ## What is drawn -/

theorem returns_drawValue {d : Die} {answers : List Int} {v : Int}
    (h : Returns (drawValue d) answers v) : answers = [v] ∧ d.range?.isSome := by
  unfold drawValue at h
  cases hr : d.range? with
  | none => rw [hr] at h; exact absurd h Draws.not_returns_fail
  | some range =>
    rw [hr] at h
    obtain ⟨answer, rest, rfl, hdone⟩ := Draws.returns_draw_iff.mp h
    obtain ⟨rfl, rfl⟩ := Draws.returns_done_iff.mp hdone
    exact ⟨rfl, rfl⟩

theorem returns_drawValues {p : Point} {d : Die} {left : Nat} {last : Int} {answers draws : List Int}
    (h : Returns (drawValues p d left last) answers draws) :
    answers = draws ∧ (draws ≠ [] → d.range?.isSome) ∧ draws.length ≤ left ∧
      (∀ v ∈ (last :: draws).dropLast, p.meets v = true) ∧
      (draws.length < left → p.meets (draws.getLastD last) = false) := by
  induction left generalizing last answers draws with
  | zero =>
    unfold drawValues at h
    split at h
    · exact absurd h Draws.not_returns_fail
    · obtain ⟨rfl, rfl⟩ := Draws.returns_done_iff.mp h
      simp
    · obtain ⟨rfl, rfl⟩ := Draws.returns_done_iff.mp h
      simp
  | succ left ih =>
    unfold drawValues at h
    split at h
    · exact absurd h Draws.not_returns_fail
    · rename_i hmiss
      obtain ⟨rfl, rfl⟩ := Draws.returns_done_iff.mp h
      simp [Point.meets, hmiss]
    · rename_i hhit
      obtain ⟨first, v, rest, rfl, hv, hrest⟩ := Draws.returns_bind_iff.mp h
      obtain ⟨more, draws, _, rfl, hmore, hdone⟩ := Draws.returns_bind_iff.mp hrest
      obtain ⟨rfl, rfl⟩ := Draws.returns_done_iff.mp hdone
      obtain ⟨rfl, hd⟩ := returns_drawValue hv
      obtain ⟨rfl, _, hlen, hmeets, hstops⟩ := ih hmore
      have hlast : p.meets last = true := by rw [Point.meets, hhit]
      refine ⟨by simp, fun _ => hd, by simpa using hlen, ?_, ?_⟩
      · rw [List.dropLast_cons_cons]
        exact List.forall_mem_cons.mpr ⟨hlast, hmeets⟩
      · rw [List.length_cons, List.getLastD_cons, Nat.add_lt_add_iff_right]
        exact hstops

theorem returns_drawsFor {p : Point} {limit : Nat} {e : Event} {answers draws : List Int}
    (h : Returns (drawsFor p limit e) answers draws) :
    answers = draws ∧ (Chain.mk e draws).Maximal p limit := by
  cases hl : e.isLive with
  | false =>
    rw [drawsFor_idle p limit hl] at h
    obtain ⟨rfl, rfl⟩ := Draws.returns_done_iff.mp h
    exact ⟨rfl, fun _ => rfl, by simp, Nat.zero_le _, by simp [Chain.values], by simp [hl]⟩
  | true =>
    rw [drawsFor_live p limit hl] at h
    obtain ⟨rfl, hd, hlen, hmeets, hstops⟩ := returns_drawValues h
    rw [← Event.isSome_request?] at hd
    exact ⟨rfl, by simp [hl], hd, hlen, hmeets, fun _ => hstops⟩

theorem returns_drawChains {p : Point} {limit : Nat} {remarks : Chain → List Warning}
    {events : List Event} {answers : List Int} {chains : List Chain}
    (h : Returns (drawChains p limit remarks events) answers chains) :
    chains.map Chain.event = events ∧ (∀ c ∈ chains, c.Maximal p limit) ∧
      answers = chains.flatMap Chain.draws := by
  induction events generalizing answers chains with
  | nil =>
    obtain ⟨rfl, rfl⟩ := Draws.returns_done_iff.mp h
    simp
  | cons e events ih =>
    obtain ⟨first, draws, rest, rfl, hdraws, hrest⟩ := Draws.returns_bind_iff.mp h
    rw [Draws.returns_announce_iff] at hrest
    obtain ⟨rest, chains, _, rfl, hchains, hdone⟩ := Draws.returns_bind_iff.mp hrest
    obtain ⟨rfl, rfl⟩ := Draws.returns_done_iff.mp hdone
    obtain ⟨rfl, hmaximal⟩ := returns_drawsFor hdraws
    obtain ⟨rfl, hall, rfl⟩ := ih hchains
    exact ⟨rfl, List.forall_mem_cons.mpr ⟨hmaximal, hall⟩, by simp⟩

/-! ## What is made of chains -/

/-- The events of a pool are those made of each chain by itself, apart from their order. -/
theorem made_perm (t : Trigger) (chains : List Chain) :
    (chains.map t.settle ++ chains.flatMap t.adds).Perm
      (chains.flatMap fun c => t.settle c :: t.adds c) :=
  List.map_append_flatMap_perm chains t.settle t.adds

/-- Where each chain counts for one or for nothing, and for some more, this may be added up. -/
theorem countP_made_add {t : Trigger} {q : Event → Bool} {r : Chain → Bool} {g : Chain → Nat}
    {chains : List Chain}
    (h : ∀ c ∈ chains, (t.settle c :: t.adds c).countP q = (if r c then 1 else 0) + g c) :
    (chains.map t.settle ++ chains.flatMap t.adds).countP q =
      chains.countP r + (chains.map g).sum := by
  rw [(made_perm t chains).countP_eq]
  induction chains with
  | nil => rfl
  | cons c chains ih =>
    obtain ⟨hc, hrest⟩ := List.forall_mem_cons.mp h
    rw [List.flatMap_cons, List.countP_append, ih hrest, hc, List.countP_cons, List.map_cons,
      List.sum_cons]
    omega

theorem countP_made {t : Trigger} {q : Event → Bool} {r : Chain → Bool} {chains : List Chain}
    (h : ∀ c ∈ chains, (t.settle c :: t.adds c).countP q = if r c then 1 else 0) :
    (chains.map t.settle ++ chains.flatMap t.adds).countP q = chains.countP r := by
  rw [countP_made_add h (g := fun _ => 0)]
  simp

end Evaluation

end Dice
