import Dice.Proofs.Evaluation.ChainRuns

/-!
# Dice.Proofs.Evaluation.Exploding

Dice that explode, and dice that compound.

* `extra_dice_chained` : what is drawn for each die, what is warned of, and what becomes of it.
-/

namespace Dice

namespace Evaluation

open Draws (answersTo)

/-- A chain goes on as long as its last value meets the condition, up to the limit, and there is a
warning for each that only the limit has ended. Chains of explosions stand behind all other events,
none of which changes. A die that compounds is replaced, with all that is drawn for it, by one event
with the sum. What is added has no chain of its own. Nothing but the source can fail, if the
comparison is known and all dice in play have faces. -/
theorem extra_dice_chained (limits : Limits) (p : Point) (pool : List Bool) (events : List Event)
    {σ : Type} [RandomSource σ] (s : σ) :
    let exploded := (applyModifier limits (.onMatch .explode p) pool events).run s
    let compounded := (applyModifier limits (.onMatch .compound p) pool events).run s
    (∀ after, exploded.result = .ok after →
      ∃ chains, Chained p limits.explosions events s exploded chains ∧
        after = events ++ chains.flatMap (·.drawn .explosion) ∧
        exploded.warnings = (chains.filter (·.isCut p limits.explosions)).map
          fun _ => .explosionLimit limits.explosions (.onMatch .explode p)) ∧
    (∀ after, compounded.result = .ok after →
      ∃ chains, Chained p limits.compounds events s compounded chains ∧
        after = (chains.map fun c => if c.draws = [] then c.event else c.event.discard) ++
          (chains.flatMap fun c =>
            if c.draws = [] then [] else (c.drawn .compound).map .discard ++ [c.sum]) ∧
        compounded.warnings = (chains.filter (·.isCut p limits.compounds)).map
          fun _ => .compoundLimit limits.compounds (.onMatch .compound p)) ∧
    (p.Known → (∀ e ∈ events, e.isLive = true → e.request?.isSome) →
      ((∃ after, exploded.result = .ok after) ∨ ∃ err, exploded.result = .error (.source err)) ∧
      ((∃ after, compounded.result = .ok after) ∨
        ∃ err, compounded.result = .error (.source err))) := by
  intro exploded compounded
  refine ⟨fun after h => ?_, fun after h => ?_, fun hp he => ⟨?_, ?_⟩⟩
  · obtain ⟨chains, hchained, hwarnings, rfl⟩ := chained_of_run .explode rfl h
    refine ⟨chains, hchained, ?_, hwarnings.trans (flatMap_remarks (fun _ => rfl) chains)⟩
    rw [settle_explode, hchained.events_eq]
    rfl
  · obtain ⟨chains, hchained, hwarnings, rfl⟩ := chained_of_run .compound rfl h
    have hne : Trigger.compound ≠ .explode := by decide
    refine ⟨chains, hchained, ?_, hwarnings.trans (flatMap_remarks (fun _ => rfl) chains)⟩
    rw [settle_replaced hne]
    rfl
  · exact returns_or_source_error limits .explode rfl hp pool he s
  · exact returns_or_source_error limits .compound rfl hp pool he s

/-- At most two extra dice each: the first die goes on with sixes, so its chain is cut, and the one
drawn again ends its chain with a two. What is discarded has none, nor has a three. -/
theorem extra_dice_chained_cut :
    let d : Die := .fresh (.sided 6)
    let p : Point := ⟨.known .equal, 6⟩
    let limits : Limits := ⟨2, 2⟩
    let events : List Event := [.drawn d .initial 6, (Event.drawn d .initial 6).discard,
      .drawn d .reroll 6, .drawn d .initial 3]
    let s := Source.ofValues [6, 6, 2]
    let exploded := (applyModifier limits (.onMatch .explode p) [] events).run s
    let compounded := (applyModifier limits (.onMatch .compound p) [] events).run s
    p.Known ∧ (∀ e ∈ events, e.isLive = true → e.request?.isSome) ∧
      exploded.result = .ok (events ++ [.drawn d .explosion 6, .drawn d .explosion 6,
        .drawn d .explosion 2]) ∧
      (∃ chains, Chained p 2 events s exploded chains ∧
        exploded.warnings = (chains.filter (·.isCut p 2)).map
          fun _ => .explosionLimit 2 (.onMatch .explode p)) ∧
      ∃ after, compounded.result = .ok after ∧
        after.filter Event.isLive = [.drawn d .initial 3, .drawn d .compound 18,
          .drawn d .compound 8] ∧
        ∃ chains, Chained p 2 events s compounded chains ∧
          compounded.warnings = (chains.filter (·.isCut p 2)).map
            fun _ => .compoundLimit 2 (.onMatch .compound p) := by
  intro d p limits events s exploded compounded
  have hp : p.Known := ⟨_, rfl⟩
  have he : ∀ e ∈ events, e.isLive = true → e.request?.isSome := by decide
  obtain ⟨hexplode, hcompound, hreturns⟩ := extra_dice_chained limits p [] events s
  refine ⟨hp, he, rfl, ?_, ?_⟩
  · obtain ⟨chains, hchained, _, hwarnings⟩ := hexplode _ rfl
    exact ⟨chains, hchained, hwarnings⟩
  · rcases (hreturns hp he).2 with ⟨after, hafter⟩ | ⟨err, herr⟩
    · obtain ⟨chains, hchained, _, hwarnings⟩ := hcompound after hafter
      cases hafter
      exact ⟨_, rfl, rfl, chains, hchained, hwarnings⟩
    · cases herr

end Evaluation

end Dice
