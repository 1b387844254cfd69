import Mathlib.Data.List.Forall2
import Dice.Evaluation.Basic
import Dice.Proofs.Draws.Faultless
import Dice.Proofs.Evaluation.Generation

/-!
# Dice.Proofs.Evaluation.Handling

What modifiers make of the events of a pool.

* `Modifier.Known` : modifiers of a kind that is known, with known symbols.
* `Point.meets` : whether a value meets a condition.
* `Handling e d answers e' more` : the die `e` has become `e'`, and `more` is added for it.
* `HandlesBy` : a modifier that handles the dice in play one by one.
* `exists_handlesBy` : this is what every modifier of the first phase does.
* `returns_generation`, `within_generation` : what comes of it, and that nothing fails.
* `Reckoning`, `returns_reckoning` : what modifiers of the other phases do.
-/

namespace Dice

/-- The comparison can be evaluated. -/
def Point.Known (p : Point) : Prop :=
  ∃ relation, p.relation = .known relation

/-- A value that the comparison is not known for does not meet it. -/
def Point.meets (p : Point) (value : Int) : Bool :=
  match p.holds value with
  | .ok hit => hit
  | .error _ => false

inductive Modifier.Known : Modifier → Prop where
  | keep (count : Int) (highest : Bool) : Known (.keep count highest)
  | drop (count : Int) (highest : Bool) : Known (.drop count highest)
  | onMatch {t : Trigger} {p : Point} : t ≠ .general → p.Known → Known (.onMatch t p)
  | adjust (sign : Sign) (value : Int) : Known (.adjust (.known sign) value)

theorem Point.Known.holds {p : Point} (h : p.Known) (value : Int) :
    ∃ hit, p.holds value = .ok hit := by
  obtain ⟨relation, hr⟩ := h
  exact ⟨relation.holds value p.value, by rw [Point.holds, hr]; rfl⟩

theorem Modifier.Known.point {t : Trigger} {p : Point} (h : (Modifier.onMatch t p).Known) :
    p.Known := by
  cases h
  assumption

/-- A die that can be drawn, by a request of a given kind. -/
def Die.Asks (P : Request → Prop) (d : Die) : Prop :=
  ∃ range, d.range? = some range ∧ P range.request

theorem Die.Asks.isSome {P : Request → Prop} {d : Die} (h : d.Asks P) : d.range?.isSome := by
  obtain ⟨range, hr, _⟩ := h
  rw [hr]
  rfl

/-- A die of the event is one that can be drawn. -/
def Event.Faced (P : Request → Prop) (e : Event) : Prop :=
  e.isDie = true → ∃ d, e.die = some d ∧ d.Asks P

/-- A die that has just come in for another: it counts, or it is replaced already. -/
def Event.IncomingFrom (d : Die) (e : Event) : Prop :=
  ∃ origin value, d.range?.isSome ∧
    (e = .drawn d origin value ∨ e = (Event.drawn d origin value).discard)

def Event.Incoming (e : Event) : Prop :=
  ∃ d, e.IncomingFrom d

/-- Whether it was drawn again or not, its die is asked for as before. -/
theorem Event.IncomingFrom.faced {P : Request → Prop} {d : Die} {e : Event} (h : e.IncomingFrom d)
    (hd : d.Asks P) : e.Faced P := by
  obtain ⟨origin, value, _, h⟩ := h
  intro _
  have hdie : e.die = some (if origin = .reroll then d.again else d.base) := by
    rcases h with rfl | rfl <;> rfl
  refine ⟨_, hdie, ?_⟩
  split
  · exact hd
  · exact hd

theorem Event.Incoming.isDropped {e : Event} (h : e.Incoming) : e.isDropped = false := by
  obtain ⟨d, origin, value, _, rfl | rfl⟩ := h <;> rfl

theorem Event.Incoming.mark {e : Event} (h : e.Incoming) : e.mark = .neutral := by
  obtain ⟨d, origin, value, _, rfl | rfl⟩ := h <;> rfl

namespace Evaluation

open Draws (Returns)

/-! ## One die in play -/

/-- The die stands as it is, or the answers drawn for it replace it, extend it, or are summed up
in its place. -/
inductive Handling (e : Event) (d : Die) : List Int → Event → List Event → Prop where
  | stands : Handling e d [] e []
  | reroll {answers : List Int} : answers ≠ [] → d.range?.isSome →
      Handling e d answers e.discard (discardAllButLast (answers.map (.drawn d .reroll)))
  | explosion {answers : List Int} : answers ≠ [] → d.range?.isSome →
      Handling e d answers e (answers.map (.drawn d .explosion))
  | compound {answers : List Int} : answers ≠ [] → d.range?.isSome →
      Handling e d answers e.discard ((answers.map (.drawn d .compound)).map .discard ++
        [compoundSum e d (answers.map (.drawn d .compound))])

theorem mem_discardAllButLast {events : List Event} {x : Event}
    (h : x ∈ discardAllButLast events) : ∃ e ∈ events, x = e ∨ x = e.discard := by
  induction events with
  | nil => cases h
  | cons e rest ih =>
    cases rest with
    | nil =>
      obtain rfl := List.mem_singleton.mp h
      exact ⟨x, List.mem_cons_self, .inl rfl⟩
    | cons e' rest =>
      rw [discardAllButLast, List.mem_cons] at h
      · rcases h with rfl | h
        · exact ⟨e, List.mem_cons_self, .inr rfl⟩
        · obtain ⟨y, hy, hx⟩ := ih h
          exact ⟨y, List.mem_cons_of_mem _ hy, hx⟩
      · simp

theorem Handling.incomingFrom {e e' : Event} {d : Die} {answers : List Int} {more : List Event}
    (h : Handling e d answers e' more) : ∀ x ∈ more, x.IncomingFrom d := by
  intro x hx
  cases h with
  | stands => cases hx
  | reroll _ hd =>
    obtain ⟨y, hy, hxy⟩ := mem_discardAllButLast hx
    obtain ⟨value, _, rfl⟩ := List.mem_map.mp hy
    exact ⟨.reroll, value, hd, hxy⟩
  | explosion _ hd =>
    obtain ⟨value, _, rfl⟩ := List.mem_map.mp hx
    exact ⟨.explosion, value, hd, .inl rfl⟩
  | compound _ hd =>
    rcases List.mem_append.mp hx with hx | hx
    · obtain ⟨_, hy, rfl⟩ := List.mem_map.mp hx
      obtain ⟨value, _, rfl⟩ := List.mem_map.mp hy
      exact ⟨.compound, value, hd, .inr rfl⟩
    · obtain rfl := List.mem_singleton.mp hx
      exact ⟨.compound, _, hd, .inl rfl⟩

theorem Handling.incoming {e e' : Event} {d : Die} {answers : List Int} {more : List Event}
    (h : Handling e d answers e' more) : ∀ x ∈ more, x.Incoming :=
  fun x hx => ⟨d, h.incomingFrom x hx⟩

/-- Only a die in play is ever replaced. -/
def Spent (e e' : Event) : Prop :=
  e' = e ∨ e.isLive = true ∧ e' = e.discard

theorem Handling.spent {e e' : Event} {d : Die} {answers : List Int} {more : List Event}
    (h : Handling e d answers e' more) (hl : e.isLive = true) : Spent e e' := by
  cases h with
  | stands => exact .inl rfl
  | reroll => exact .inr ⟨hl, rfl⟩
  | explosion => exact .inl rfl
  | compound => exact .inr ⟨hl, rfl⟩

/-- What discarding does not change holds of all events as before. -/
theorem forall_of_spent {P : Event → Prop} (hP : ∀ e, P e → P e.discard) {before after : List Event}
    (h : List.Forall₂ Spent before after) (hb : ∀ e ∈ before, P e) : ∀ e ∈ after, P e := by
  induction h with
  | nil => exact hb
  | cons hone _ ih =>
    obtain ⟨he, hrest⟩ := List.forall_mem_cons.mp hb
    refine List.forall_mem_cons.mpr ⟨?_, ih hrest⟩
    rcases hone with rfl | ⟨_, rfl⟩
    · exact he
    · exact hP _ he

/-! ## Every die in play -/

variable {handle : Event → Die → Draws (Event × List Event)}

theorem Handled.spent
    (hh : ∀ e d answers e' more, Returns (handle e d) answers (e', more) →
      Handling e d answers e' more)
    {events handled added : List Event} {answers : List Int}
    (h : Handled handle events answers handled added) :
    List.Forall₂ Spent events handled ∧ ∀ x ∈ added, x.Incoming := by
  induction h with
  | nil => exact ⟨.nil, by simp⟩
  | skip _ _ ih => exact ⟨.cons (.inl rfl) ih.1, ih.2⟩
  | live hl _ he _ ih =>
    have hone := hh _ _ _ _ _ he
    exact ⟨.cons (hone.spent hl) ih.1, List.forall_mem_append.mpr ⟨hone.incoming, ih.2⟩⟩

theorem Event.isDie_of_isLive {e : Event} (h : e.isLive = true) : e.isDie = true := by
  simp only [Event.isLive, Bool.and_eq_true] at h
  exact h.2

theorem within_eachLive {P : Request → Prop} (hh : ∀ e d, d.Asks P → (handle e d).Within P)
    {events : List Event} (he : ∀ e ∈ events, e.Faced P) (handled added : List Event) :
    (eachLive handle events handled added).Within P := by
  induction events generalizing handled added with
  | nil => trivial
  | cons e events ih =>
    obtain ⟨hfaced, hrest⟩ := List.forall_mem_cons.mp he
    cases hl : e.isLive with
    | false =>
      rw [eachLive, hl]
      exact ih hrest _ _
    | true =>
      obtain ⟨d, hd, hasks⟩ := hfaced (Event.isDie_of_isLive hl)
      rw [eachLive, hl, hd]
      exact (hh e d hasks).bind fun _ _ _ => ih hrest _ _

/-! ## Drawing -/

variable {P : Request → Prop}

theorem within_drawDie {d : Die} (hd : d.Asks P) (origin : Origin) :
    (drawDie d origin).Within P := by
  obtain ⟨range, hr, hP⟩ := hd
  rw [drawDie, hr]
  exact ⟨hP, fun _ => trivial⟩

theorem within_drawPool {d : Die} (hd : d.Asks P) (count : Nat) (drawn : List Event) :
    (drawPool d count drawn).Within P := by
  induction count generalizing drawn with
  | zero => trivial
  | succ count ih => exact (within_drawDie hd _).bind fun _ _ _ => ih _

theorem within_chain {p : Point} (hp : p.Known) {d : Die} (hd : d.Asks P)
    (origin : Origin) (warning : Int → Warning) (left : Nat) (last : Int) (drawn : List Event) :
    (chain p (drawDie d origin) warning left last drawn).Within P := by
  induction left generalizing last drawn with
  | zero =>
    obtain ⟨hit, hhit⟩ := hp.holds last
    rw [chain, hhit]
    cases hit <;> trivial
  | succ left ih =>
    obtain ⟨hit, hhit⟩ := hp.holds last
    rw [chain, hhit]
    cases hit with
    | false => trivial
    | true => exact (within_drawDie hd origin).bind fun _ _ _ => ih _ _

/-! ## Modifiers of the first phase -/

structure HandlesBy (apply : List Event → Draws (List Event)) (known : Prop)
    (handle : Event → Die → Draws (Event × List Event)) : Prop where
  each : ∀ events, apply events = eachLive handle events [] []
  handling : ∀ e d answers e' more, Returns (handle e d) answers (e', more) →
    Handling e d answers e' more
  within : known → ∀ (P : Request → Prop) e d, d.Asks P → (handle e d).Within P

theorem handlesBy_rerollOnce (p : Point) : ∃ handle, HandlesBy (rerollOnce p) p.Known handle := by
  refine ⟨_, fun _ => rfl, ?_, ?_⟩
  · intro e d answers e' more h
    split at h
    · exact absurd h Draws.not_returns_fail
    · obtain ⟨rfl, hr⟩ := Draws.returns_done_iff.mp h
      cases hr
      exact .stands
    · obtain ⟨first, new, rest, rfl, hnew, hr⟩ := Draws.returns_bind_iff.mp h
      obtain ⟨hd, value, rfl, rfl⟩ := returns_drawDie_iff.mp hnew
      obtain ⟨rfl, hr⟩ := Draws.returns_done_iff.mp hr
      cases hr
      exact .reroll (List.cons_ne_nil value []) hd
  · intro hp P e d hd
    obtain ⟨hit, hhit⟩ := hp.holds e.value
    simp only [hhit]
    cases hit with
    | false => trivial
    | true => exact (within_drawDie hd _).bind fun _ _ _ => trivial

theorem handlesBy_rerollWhile (m : Modifier) (p : Point) :
    ∃ handle, HandlesBy (rerollWhile m p) p.Known handle := by
  refine ⟨_, fun _ => rfl, ?_, ?_⟩
  · intro e d answers e' more h
    obtain ⟨first, rest, rfl, hd, hr⟩ := returns_chain_bind h
    split at hr
    · rename_i hnil
      obtain ⟨rfl, hr⟩ := Draws.returns_done_iff.mp hr
      cases hr
      obtain rfl : first = [] := by simpa using hnil
      exact .stands
    · rename_i hne
      obtain ⟨rfl, hr⟩ := Draws.returns_done_iff.mp hr
      cases hr
      have hfirst : first ≠ [] := by rintro rfl; exact hne rfl
      rw [List.append_nil]
      exact .reroll hfirst (hd.resolve_left hfirst)
  · intro hp P e d hd
    refine (within_chain hp hd _ _ _ _ _).bind fun _ drawn _ => ?_
    split <;> trivial

theorem handlesBy_explode (limit : Nat) (m : Modifier) (p : Point) :
    ∃ handle, HandlesBy (explode limit m p) p.Known handle := by
  refine ⟨_, fun _ => rfl, ?_, ?_⟩
  · intro e d answers e' more h
    obtain ⟨first, rest, rfl, hd, hr⟩ := returns_chain_bind h
    obtain ⟨rfl, hr⟩ := Draws.returns_done_iff.mp hr
    cases hr
    rw [List.append_nil]
    by_cases hfirst : first = []
    · subst hfirst
      exact .stands
    · exact .explosion hfirst (hd.resolve_left hfirst)
  · intro hp P e d hd
    exact (within_chain hp hd _ _ _ _ _).bind fun _ _ _ => trivial

theorem handlesBy_compound (limit : Nat) (m : Modifier) (p : Point) :
    ∃ handle, HandlesBy (compound limit m p) p.Known handle := by
  refine ⟨_, fun _ => rfl, ?_, ?_⟩
  · intro e d answers e' more h
    obtain ⟨first, rest, rfl, hd, hr⟩ := returns_chain_bind h
    split at hr
    · rename_i hnil
      obtain ⟨rfl, hr⟩ := Draws.returns_done_iff.mp hr
      cases hr
      obtain rfl : first = [] := by simpa using hnil
      exact .stands
    · rename_i hne
      obtain ⟨rfl, hr⟩ := Draws.returns_done_iff.mp hr
      cases hr
      have hfirst : first ≠ [] := by rintro rfl; exact hne rfl
      rw [List.append_nil]
      exact .compound hfirst (hd.resolve_left hfirst)
  · intro hp P e d hd
    refine (within_chain hp hd _ _ _ _ _).bind fun _ drawn _ => ?_
    split <;> trivial

/-- The dice that are counted do not matter before anything is counted. -/
theorem exists_handlesBy (limits : Limits) {m : Modifier} (hm : m.phase = .generation)
    (pool : List Bool) : ∃ handle, HandlesBy (applyModifier limits m pool) m.Known handle := by
  have hpoint {t : Trigger} {p : Point} {apply : List Event → Draws (List Event)}
      (h : ∃ handle, HandlesBy apply p.Known handle) :
      ∃ handle, HandlesBy apply (Modifier.onMatch t p).Known handle := by
    obtain ⟨handle, heach, hhandling, hwithin⟩ := h
    exact ⟨handle, heach, hhandling, fun hk => hwithin hk.point⟩
  cases m with
  | onMatch t p =>
    cases t with
    | rerollOnce => exact hpoint (handlesBy_rerollOnce p)
    | rerollWhile => exact hpoint (handlesBy_rerollWhile _ p)
    | explode => exact hpoint (handlesBy_explode _ _ p)
    | compound => exact hpoint (handlesBy_compound _ _ p)
    | success => cases hm
    | failure => cases hm
    | general => cases hm
  | keep => cases hm
  | drop => cases hm
  | adjust => cases hm
  | general => cases hm

variable {limits : Limits} {m : Modifier} {pool : List Bool} {events after : List Event}

theorem returns_generation (hm : m.phase = .generation) {answers : List Int}
    (h : Returns (applyModifier limits m pool events) answers after) :
    ∃ old new, after = old ++ new ∧ List.Forall₂ Spent events old ∧ ∀ x ∈ new, x.Incoming := by
  obtain ⟨handle, heach, hhandling, _⟩ := exists_handlesBy limits hm pool
  rw [heach] at h
  obtain ⟨old, new, hhandled, rfl⟩ := returns_eachLive_iff.mp h
  exact ⟨old, new, rfl, hhandled.spent hhandling⟩

theorem within_generation (hm : m.phase = .generation) (hk : m.Known)
    (he : ∀ e ∈ events, e.Faced P) : (applyModifier limits m pool events).Within P := by
  obtain ⟨handle, heach, _, hwithin⟩ := exists_handlesBy limits hm pool
  rw [heach]
  exact within_eachLive (hwithin hk P) he [] []

/-! ## Modifiers of the other phases -/

/-- Some of the dice that count are dropped, all of them are counted, or a constant is added. -/
inductive Reckoning (pool : List Bool) (events : List Event) : List Event → Prop where
  | drops {highest : Bool} {dropped : List Nat} : dropped ⊆ ranking highest events →
      Reckoning pool events (dropPlaces dropped events)
  | counts {mark : Mark} {p : Point} {after : List Event} : count mark p pool events = .ok after →
      Reckoning pool events after
  | adds (amount : Int) : Reckoning pool events (adjust amount events)

theorem returns_reckoning (hm : m.phase ≠ .generation) {answers : List Int}
    (h : Returns (applyModifier limits m pool events) answers after) :
    answers = [] ∧ Reckoning pool events after := by
  have hcount {mark : Mark} {p : Point}
      (h : Returns (.ofExcept .unknownRelation (count mark p pool events)) answers after) :
      answers = [] ∧ Reckoning pool events after := by
    obtain ⟨rfl, hc⟩ := Draws.returns_ofExcept_iff.mp h
    exact ⟨rfl, .counts hc⟩
  cases m with
  | keep n highest =>
    obtain ⟨rfl, rfl⟩ := Draws.returns_done_iff.mp h
    exact ⟨rfl, .drops (List.drop_subset _ _)⟩
  | drop n highest =>
    obtain ⟨rfl, rfl⟩ := Draws.returns_done_iff.mp h
    exact ⟨rfl, .drops (List.take_subset _ _)⟩
  | onMatch t p =>
    cases t with
    | success => exact hcount h
    | failure => exact hcount h
    | general => exact absurd h Draws.not_returns_fail
    | _ => exact absurd rfl hm
  | adjust sign n =>
    cases sign with
    | known sign =>
      obtain ⟨rfl, rfl⟩ := Draws.returns_done_iff.mp h
      exact ⟨rfl, .adds _⟩
    | unknown found => exact absurd h Draws.not_returns_fail
  | general => exact absurd h Draws.not_returns_fail

end Evaluation

end Dice
