import Dice.Proofs.Evaluation.Growth

/-!
# Dice.Proofs.Evaluation.Heredity

Properties that the events of a pool hand down.

* `Hereditary Q` : what becomes of an event does not matter to `Q`, a die that comes in for
  another has it from that one, and constants and counts of dice have it anyway.
* `Hereditary.applyModifier`, `Hereditary.applyAll` : what holds of all events of a pool holds of
  all of them afterwards.
* `hereditary_faced` : dice that can be drawn have only such dice come in for them.
-/

namespace Dice

namespace Event

structure Hereditary (Q : Event → Prop) : Prop where
  bare : ∀ {e e' : Event}, e'.bare = e.bare → Q e → Q e'
  incoming : ∀ {e : Event} {d : Die} {x : Event}, Q e → e.isDie = true → e.die = some d →
    x.IncomingFrom d → Q x
  summary : ∀ {kind : DieKind}, kind.range? = none → ∀ value, Q (.summary kind value)

theorem hereditary_faced (P : Request → Prop) : Hereditary (Event.Faced P) where
  bare {e e'} hbare he := by
    have hdie : e'.die = e.die := (congrArg Event.die hbare : e'.bare.die = e.bare.die)
    intro hd
    rw [hdie]
    exact he (by rwa [isDie, ← hdie])
  incoming he hd hdie hx := by
    obtain ⟨d, hd', hasks⟩ := he hd
    cases hdie.symm.trans hd'
    exact hx.faced hasks
  summary {kind} hkind value := by
    have hnone : (summary kind value).isDie = false := by simp [isDie, summary, Die.rollable, hkind]
    intro hd
    rw [hnone] at hd
    cases hd

namespace Hereditary

open Draws (Returns)
open Evaluation

variable {Q : Event → Prop} {limits : Limits} {events after : List Event} {answers : List Int}

/-- It is handed down by the dice in play that others come in for. -/
theorem added (hQ : Hereditary Q)
    {handle : Event → Die → Draws (Event × List Event)}
    (hh : ∀ e d answers e' more, Returns (handle e d) answers (e', more) →
      Handling e d answers e' more)
    {handled added : List Event} (h : Handled handle events answers handled added)
    (he : ∀ e ∈ events, Q e) : ∀ x ∈ added, Q x := by
  induction h with
  | nil => simp
  | skip _ _ ih => exact ih (List.forall_mem_cons.mp he).2
  | live hl hdie hone _ ih =>
    obtain ⟨hfirst, hrest⟩ := List.forall_mem_cons.mp he
    have hincoming := (hh _ _ _ _ _ hone).incomingFrom
    refine List.forall_mem_append.mpr ⟨fun x hx => ?_, ih hrest⟩
    exact hQ.incoming hfirst (Event.isDie_of_isLive hl) hdie (hincoming x hx)

theorem of_bare (hQ : Hereditary Q)
    (h : after.map Event.bare = events.map Event.bare) (he : ∀ e ∈ events, Q e) :
    ∀ e ∈ after, Q e := by
  intro x hx
  obtain ⟨e, hmem, hbare⟩ := List.mem_map.mp (h ▸ List.mem_map_of_mem hx)
  exact hQ.bare hbare.symm (he e hmem)

theorem applyModifier (hQ : Hereditary Q) {m : Modifier} {pool : List Bool}
    (h : Returns (applyModifier limits m pool events) answers after) (he : ∀ e ∈ events, Q e) :
    ∀ e ∈ after, Q e := by
  by_cases hm : m.phase = .generation
  · obtain ⟨handle, heach, hhandling, _⟩ := exists_handlesBy limits hm pool
    rw [heach] at h
    obtain ⟨handled, added, hall, rfl⟩ := returns_eachLive_iff.mp h
    obtain ⟨hspent, _⟩ := hall.spent hhandling
    refine List.forall_mem_append.mpr ⟨?_, hQ.added hhandling hall he⟩
    exact forall_of_spent (fun e => hQ.bare (e := e) rfl) hspent he
  · obtain ⟨_, hreckoning⟩ := returns_reckoning hm h
    cases hreckoning with
    | drops _ => exact hQ.of_bare (dropPlaces_bare _ _) he
    | counts hcount =>
      obtain ⟨old, number, rfl, hold⟩ := exists_of_count hcount
      refine List.forall_mem_append.mpr ⟨hQ.of_bare hold he, ?_⟩
      exact List.forall_mem_singleton.mpr (hQ.summary rfl _)
    | adds amount =>
      exact List.forall_mem_append.mpr
        ⟨he, List.forall_mem_singleton.mpr (hQ.summary rfl amount)⟩

theorem applyAll (hQ : Hereditary Q) {modifiers : List Modifier}
    {pool : Option (List Bool)} (h : Returns (applyAll limits modifiers pool events) answers after)
    (he : ∀ e ∈ events, Q e) : ∀ e ∈ after, Q e := by
  induction modifiers generalizing pool events answers with
  | nil =>
    obtain ⟨_, rfl⟩ := Draws.returns_done_iff.mp h
    exact he
  | cons m modifiers ih =>
    obtain ⟨_, mid, _, _, hfirst, hrest⟩ := Draws.returns_bind_iff.mp h
    exact ih hrest (hQ.applyModifier hfirst he)

end Hereditary

end Event

end Dice
