import Dice.Proofs.Evaluation.Replay
import Dice.Proofs.Evaluation.Safety

/-!
# Dice.Proofs.Evaluation.Faces

What is asked of a source for the dice of a pool, and what its events say of them.

* `idle_applyModifier` : modifiers that are not known draw nothing.
* `confined_pool` : every request of a pool is that of its die, whatever its modifiers are.
* `Event.Fits kind` : a die of the trace is of that kind, and shows how its value ranks among the
  faces; whatever is no die shows nothing.
* `hereditary_fits` : every modifier hands this down.
* `pool_fits` : so the requests and the trace of a pool fit its die.
-/

namespace Dice

namespace Draws

variable {α ε : Type} {P : Request → Prop}

/-- It is over before anything is requested. -/
def Idle (p : Draws α) : Prop :=
  (∃ a, p = .done a) ∨ ∃ e, p = .fail e

theorem idle_done (a : α) : (Draws.done a).Idle :=
  .inl ⟨a, rfl⟩

theorem idle_fail (e : RollError) : (Draws.fail e : Draws α).Idle :=
  .inr ⟨e, rfl⟩

theorem idle_ofExcept (error : ε → RollError) (x : Except ε α) : (ofExcept error x).Idle := by
  cases x with
  | ok a => exact idle_done a
  | error e => exact idle_fail (error e)

theorem Idle.confined {p : Draws α} (h : p.Idle) : p.Confined P fun _ => True := by
  rcases h with ⟨a, rfl⟩ | ⟨e, rfl⟩ <;> trivial

end Draws

namespace Evaluation

open Draws (Returns)

variable {limits : Limits} {P : Request → Prop}

/-! ## Requests -/

theorem idle_eachLive_fail (err : RollError) (events handled added : List Event) :
    (eachLive (fun _ _ => .fail err) events handled added).Idle := by
  induction events generalizing handled with
  | nil => exact Draws.idle_done _
  | cons e events ih =>
    cases hl : e.isLive with
    | false =>
      rw [eachLive, hl]
      exact ih _
    | true =>
      obtain ⟨d, hd, _⟩ := Event.exists_die_of_isLive hl
      rw [eachLive, hl, hd]
      exact Draws.idle_fail err

/-- A comparison that is not known fails at the first value that it is asked of. -/
theorem idle_applyTrigger (limits : Limits) (t : Trigger) {p : Point} {found : Stranger}
    (hp : p.relation = .unknown found) (pool : List Bool) (events : List Event) :
    (applyTrigger limits t p pool events).Idle := by
  have hholds (value : Int) : p.holds value = .error ⟨found⟩ := by rw [Point.holds, hp]; rfl
  have hchain (draw : Draws Event) (warning : Int → Warning) (left : Nat) (last : Int)
      (drawn : List Event) :
      chain p draw warning left last drawn = .fail (.unknownRelation ⟨found⟩) := by
    cases left <;> simp only [chain, hholds]
  have heach := idle_eachLive_fail (.unknownRelation ⟨found⟩) events [] []
  cases t with
  | rerollOnce => simpa only [applyTrigger, rerollOnce, hholds] using heach
  | rerollWhile => simpa only [applyTrigger, rerollWhile, hchain, Draws.fail_bind] using heach
  | explode => simpa only [applyTrigger, explode, hchain, Draws.fail_bind] using heach
  | compound => simpa only [applyTrigger, compound, hchain, Draws.fail_bind] using heach
  | success => exact Draws.idle_ofExcept _ _
  | failure => exact Draws.idle_ofExcept _ _
  | general => exact Draws.idle_fail _

theorem idle_applyModifier (limits : Limits) {m : Modifier} (hm : ¬ m.Known) (pool : List Bool)
    (events : List Event) : (applyModifier limits m pool events).Idle := by
  cases m with
  | keep count highest => exact absurd (.keep count highest) hm
  | drop count highest => exact absurd (.drop count highest) hm
  | onMatch t p =>
    cases hp : p.relation with
    | unknown found => exact idle_applyTrigger limits t hp pool events
    | known relation =>
      cases t with
      | general => exact Draws.idle_fail _
      | _ => exact absurd (.onMatch nofun ⟨relation, hp⟩) hm
  | adjust sign value =>
    cases sign with
    | known sign => exact absurd (.adjust sign value) hm
    | unknown found => exact Draws.idle_fail _
  | general => exact Draws.idle_fail _

theorem confined_applyModifier (limits : Limits) (m : Modifier) (pool : List Bool)
    {events : List Event} (he : ∀ e ∈ events, e.Faced P) :
    (applyModifier limits m pool events).Confined P fun _ => True := by
  by_cases hm : m.Known
  · exact (within_applyModifier limits hm pool he).confined _
  · exact (idle_applyModifier limits hm pool events).confined

theorem confined_pool (limits : Limits) (count : Int) {kind : DieKind} {range : Range}
    (hkind : kind.range? = some range) (modifiers : List Node) :
    (evaluatePool limits count (.die (.fresh kind)) modifiers).Confined (· = range.request)
      fun _ => True := by
  have hdie : poolDie? (.die (.fresh kind)) = some (.fresh kind) :=
    if_pos (Option.isSome_of_eq_some hkind)
  refine confined_evaluatePool limits count (fun _ => trivial) (fun d hd => ?_)
    (fun _ _ => trivial) fun m _ pool _ he => confined_applyModifier limits m pool he
  cases hdie.symm.trans hd
  exact ⟨range, hkind, rfl⟩

end Evaluation

/-! ## Events -/

/-- A die that was drawn again remembers its kind, and nothing else. -/
structure Event.Fits (kind : DieKind) (e : Event) : Prop where
  die : e.isDie = true → e.die = some (if e.origin = .reroll then .redrawn kind else .fresh kind)
  significance :
    e.significance = if e.isDie then Dice.significance (.fresh kind) e.value else .none

theorem Event.fits_drawn {d : Die} (hd : d.range?.isSome) (origin : Origin) (value : Int) :
    (Event.drawn d origin value).Fits d.kind := by
  refine ⟨fun _ => rfl, ?_⟩
  rw [Evaluation.isDie_drawn hd]
  rfl

theorem Event.hereditary_fits (kind : DieKind) : Event.Hereditary (Event.Fits kind) where
  bare {e e'} hbare he := by
    obtain ⟨value, origin, die, significance, status, mark, group, groupSign⟩ := e
    obtain ⟨value', origin', die', significance', status', mark', group', groupSign'⟩ := e'
    simp only [Event.bare, Event.mk.injEq] at hbare
    obtain ⟨rfl, rfl, rfl, rfl, _⟩ := hbare
    exact ⟨he.die, he.significance⟩
  incoming {e d x} he hd hdie hx := by
    have hkind : d.kind = kind := by
      have hsame := hdie.symm.trans (he.die hd)
      split at hsame <;> cases hsame <;> rfl
    obtain ⟨origin, value, hrange, hx⟩ := hx
    have hdrawn := Event.fits_drawn hrange origin value
    rw [hkind] at hdrawn
    rcases hx with rfl | rfl
    · exact hdrawn
    · exact ⟨hdrawn.die, hdrawn.significance⟩
  summary {kind'} hkind value := by
    have hnone : (summary kind' value).isDie = false := by
      simp [isDie, summary, Die.rollable, hkind]
    refine ⟨fun hd => ?_, ?_⟩
    · rw [hnone] at hd
      cases hd
    · rw [hnone]
      rfl

namespace Event.Fits

variable {kind : DieKind} {range : Range} {e : Event}

theorem significance_eq_maximum_iff (h : e.Fits kind) (hkind : kind.range? = some range) :
    e.significance = .maximum ↔ e.isDie = true ∧ e.value = range.high := by
  rw [h.significance]
  cases e.isDie with
  | false => simp
  | true =>
    have hrange : (Die.fresh kind).range? = some range := hkind
    by_cases hhigh : e.value = range.high
    · simp [Dice.significance, hrange, hhigh]
    · by_cases hlow : e.value = range.low <;> simp [Dice.significance, hrange, hhigh, hlow]

theorem significance_eq_minimum_iff (h : e.Fits kind) (hkind : kind.range? = some range) :
    e.significance = .minimum ↔
      e.isDie = true ∧ e.value = range.low ∧ range.low ≠ range.high := by
  rw [h.significance]
  cases e.isDie with
  | false => simp
  | true =>
    have hrange : (Die.fresh kind).range? = some range := hkind
    by_cases hhigh : e.value = range.high
    · simp [Dice.significance, hrange, hhigh, eq_comm]
    · have hne (hlow : e.value = range.low) : range.low ≠ range.high :=
        fun h => hhigh (hlow.trans h)
      simpa [Dice.significance, hrange, hhigh] using hne

end Event.Fits

namespace Evaluation

open Draws (Returns answersTo)

/-- The dice that a pool starts with fit it, and the modifiers hand this down. -/
theorem fits_of_returns {limits : Limits} {count : Int} {kind : DieKind} {modifiers : List Node}
    {answers : List Int} {e : Evaluation}
    (h : Returns (evaluatePool limits count (.die (.fresh kind)) modifiers) answers e) :
    ∀ event ∈ e.events, event.Fits kind := by
  obtain ⟨d, ms, first, rest, hd, _, _, _, happly, _⟩ := returns_evaluatePool h
  obtain rfl : d = .fresh kind := by
    rw [poolDie?] at hd
    split at hd <;> cases hd
    rfl
  refine (Event.hereditary_fits kind).applyAll happly fun event hevent => ?_
  obtain ⟨value, _, rfl⟩ := List.mem_map.mp hevent
  exact Event.fits_drawn (isSome_range_of_poolDie? hd) .initial value

variable {σ : Type} [RandomSource σ]

/-- A pool asks for the faces of its die and for nothing else, also if it has no value in the end.
If all answers are among those asked for, the trace fits the die: the dice in it are of its kind,
those drawn again remember it, those drawn show one of its faces, and the greatest face and the
least are told apart from all other values. A die that was not drawn is the sum of a compound. -/
theorem pool_fits (limits : Limits) (count : Int) {kind : DieKind} {range : Range}
    (hkind : kind.range? = some range) (modifiers : List Node) (s : σ) :
    let n : Node := .pool count (.die (.fresh kind)) modifiers
    let run := (n.evaluate limits).run s
    let answers := answersTo s run.requests
    (∀ r ∈ run.requests, r = range.request) ∧
      ((∀ p ∈ run.requests.zip answers, p.1.low ≤ p.2 ∧ p.2 < p.1.high) →
        ∀ e, run.result = .ok e → ∃ notes : List Provenance,
          ((n.trace limits).run s).result = .ok (e, notes) ∧ Noted e.events notes answers ∧
          ∀ event note, (event, note) ∈ e.events.zip notes →
            (event.isDie = true →
              event.die = some (if event.origin = .reroll then .redrawn kind else .fresh kind) ∧
              (note = .added ∧ event.origin = .compound ∨
                note = .drawn ∧ range.low ≤ event.value ∧ event.value ≤ range.high)) ∧
            (event.significance = .maximum ↔ event.isDie = true ∧ event.value = range.high) ∧
            (event.significance = .minimum ↔
              event.isDie = true ∧ event.value = range.low ∧ range.low ≠ range.high)) := by
  intro n run answers
  have hrequests : ∀ r ∈ run.requests, r = range.request :=
    (confined_pool limits count hkind modifiers).requests s
  refine ⟨hrequests, fun hanswers e he => ?_⟩
  obtain ⟨notes, htrace, hnoted⟩ := exists_noted limits n s he
  refine ⟨notes, htrace, hnoted, fun event note hmem => ?_⟩
  have hfits := fits_of_returns (Draws.returns_answersTo he).1 event (List.of_mem_zip hmem).1
  have hface (hnote : note = .drawn) : range.low ≤ event.value ∧ event.value ≤ range.high := by
    have hvalues : valuesNoted e.events notes = answers := hnoted.values
    have hanswer : event.value ∈ answers := by
      rw [← hvalues]
      exact List.mem_map.mpr ⟨(event, note), List.mem_filter.mpr ⟨hmem, by simp [hnote]⟩, rfl⟩
    obtain ⟨r, hr, hzip⟩ := Draws.exists_request he hanswer
    obtain ⟨hlow, hhigh⟩ := hanswers _ hzip
    rw [hrequests r hr] at hlow hhigh
    exact ⟨hlow, Int.lt_add_one_iff.mp hhigh⟩
  refine ⟨fun hdie => ⟨hfits.die hdie, ?_⟩, hfits.significance_eq_maximum_iff hkind,
    hfits.significance_eq_minimum_iff hkind⟩
  cases note with
  | drawn => exact .inr ⟨rfl, hface rfl⟩
  | added =>
    have hcompound := (hnoted.fits _ hmem).2 rfl
    exact .inl ⟨rfl, hcompound.resolve_left (by simp [hdie])⟩

/-- `2d6^=6ro>6` : a six is compounded to nine, and the nine is drawn again. -/
theorem pool_fits_rerolled_sum :
    let n : Node := .pool 2 (.die (.fresh (.sided 6)))
      [.modifier (.onMatch .compound ⟨.known .equal, 6⟩),
        .modifier (.onMatch .rerollOnce ⟨.known .greater, 6⟩)]
    let run := (n.evaluate .standard).run (Source.ofValues [6, 2, 3, 4])
    (∀ r ∈ run.requests, r = ⟨1, 7⟩) ∧ ∃ e notes, run.result = .ok e ∧
      e.events.map Event.value = [6, 2, 3, 9, 4] ∧ Noted e.events notes [6, 2, 3, 4] ∧
      ∀ event note, (event, note) ∈ e.events.zip notes → event.isDie = true →
        note = .drawn → 1 ≤ event.value ∧ event.value ≤ 6 := by
  intro n run
  have hkind : (DieKind.sided 6).range? = some ⟨1, 6⟩ := rfl
  obtain ⟨hrequests, htrace⟩ := pool_fits .standard 2 hkind
    [.modifier (.onMatch .compound ⟨.known .equal, 6⟩),
      .modifier (.onMatch .rerollOnce ⟨.known .greater, 6⟩)] (Source.ofValues [6, 2, 3, 4])
  have hbounds : ∀ p ∈ run.requests.zip (answersTo (Source.ofValues [6, 2, 3, 4]) run.requests),
      p.1.low ≤ p.2 ∧ p.2 < p.1.high := by decide
  obtain ⟨notes, _, hnoted, hevents⟩ := htrace hbounds _ rfl
  refine ⟨hrequests, _, notes, rfl, rfl, hnoted, fun event note hmem hdie hnote => ?_⟩
  rcases ((hevents event note hmem).1 hdie).2 with ⟨hadded, _⟩ | ⟨_, hface⟩
  · rw [hnote] at hadded
    cases hadded
  · exact hface

end Evaluation

end Dice
