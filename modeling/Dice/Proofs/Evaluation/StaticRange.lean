import Mathlib.Algebra.Order.BigOperators.Group.List
import Dice.Proofs.Evaluation.Conservation
import Dice.Proofs.Evaluation.Faces
import Dice.Proofs.Evaluation.Survivors

/-!
# Dice.Proofs.Evaluation.StaticRange

What is known of the value of a roll before anything is drawn.

* `Draws.Answered` : a source that answers all requests, each within its bounds.
* `Modifier.Steady`, `Modifier.survivors` : modifiers that leave a number of dice that does not depend
  on what they show.
* `Rolled`, `Rolled.step`, `Rolled.run` : drawing dice again keeps their number and their faces.
* `length_foldl_picked`, `mem_foldl_picked` : so does keeping and dropping, for the dice left.
* `applyAll_constants_eq` : constants are put behind the dice.
* `static_range` : the number of dice left, and the bounds of the value.
-/

namespace Dice

namespace Draws

variable {α σ : Type} [RandomSource σ]

/-- Every request has an answer, which lies within its bounds. -/
def Answered (s : σ) (requests : List Request) : Prop :=
  List.Forall₂ (fun r v => r.low ≤ v ∧ v < r.high) requests (answersTo s requests)

/-- There is no answer to the last request. -/
theorem length_answersTo_le {s : σ} {answered : List Request} {last : Request} {e : SourceError}
    (h : (RandomSource.next (sourceAfter s answered) last).1 = .error e) :
    (answersTo s (answered ++ [last])).length ≤ answered.length := by
  induction answered generalizing s with
  | nil =>
    cases hs : RandomSource.next s last with
    | mk answer s' =>
      rw [sourceAfter, hs] at h
      cases h
      simp [answersTo, hs]
  | cons r answered ih =>
    cases hs : RandomSource.next s r with
    | mk answer s' =>
      cases answer with
      | error e => simp [answersTo, hs]
      | ok value =>
        rw [sourceAfter, hs] at h
        have hle : (answersTo s' (answered ++ [last])).length ≤ answered.length := ih h
        simp only [List.cons_append, answersTo, hs, List.length_cons]
        omega

/-- Nothing is left to fail. -/
theorem Faultless.exists_result {p : Draws α} (hp : p.Faultless) {s : σ}
    (h : Answered s (p.run s).requests) : ∃ a, (p.run s).result = .ok a := by
  rcases hp.run s with hok | ⟨answered, last, e, hrequests, herror, _⟩
  · exact hok
  · have hle := length_answersTo_le herror
    have hlength := h.length_eq
    rw [hrequests] at hlength
    rw [← hlength, List.length_append, List.length_singleton] at hle
    omega

end Draws

open Evaluation

namespace Modifier

/-- Dice are drawn again, some of them are kept or dropped, or a constant is added. -/
inductive Steady : Modifier → Prop where
  | rerollOnce {p : Point} : p.Known → Steady (.onMatch .rerollOnce p)
  | rerollWhile {p : Point} : p.Known → Steady (.onMatch .rerollWhile p)
  | keep {count : Int} (highest : Bool) : 1 ≤ count → Steady (.keep count highest)
  | drop {count : Int} (highest : Bool) : 1 ≤ count → Steady (.drop count highest)
  | adjust (sign : Sign) (value : Int) : Steady (.adjust (.known sign) value)

/-- How many of a number of dice are left. -/
def survivors (k : Int) : Modifier → Int
  | .keep count _ => min k count
  | .drop count _ => max (k - count) 0
  | _ => k

variable {m : Modifier}

theorem Steady.known (h : m.Steady) : m.Known := by
  cases h with
  | rerollOnce hp => exact .onMatch (by decide) hp
  | rerollWhile hp => exact .onMatch (by decide) hp
  | keep => exact .keep _ _
  | drop => exact .drop _ _
  | adjust => exact .adjust _ _

theorem Steady.again (h : m.Steady) (hm : m.phase = .generation) :
    ∃ t p, m = .onMatch t p ∧ (t = .rerollOnce ∨ t = .rerollWhile) := by
  cases h with
  | rerollOnce => exact ⟨_, _, rfl, .inl rfl⟩
  | rerollWhile => exact ⟨_, _, rfl, .inr rfl⟩
  | _ => cases hm

theorem Steady.constant (h : m.Steady) (hm : m.phase = .finalization) :
    ∃ sign value, m = .adjust (.known sign) value := by
  cases h with
  | adjust sign value => exact ⟨sign, value, rfl⟩
  | _ => cases hm

theorem survivors_of_phase (hm : m.phase ≠ .selection) (k : Int) : m.survivors k = k := by
  cases m with
  | keep => exact absurd rfl hm
  | drop => exact absurd rfl hm
  | _ => rfl

theorem Steady.length_picked (h : m.Steady) (values : List Int) :
    ((m.picked values).length : Int) = m.survivors values.length := by
  cases h with
  | @keep count highest hcount =>
    have hlength := (perm_rank highest values).length_eq
    have hselected : selectedCount count values.length = min count.toNat values.length :=
      if_pos (by omega)
    rw [picked, survivors, List.length_take, hlength, hselected]
    omega
  | @drop count highest hcount =>
    have hlength := (perm_rank highest values).length_eq
    have hselected : selectedCount count values.length = min count.toNat values.length :=
      if_pos (by omega)
    rw [picked, survivors, List.length_drop, hlength, hselected]
    omega
  | _ => rfl

theorem mem_of_mem_picked {values : List Int} {v : Int} (h : v ∈ m.picked values) : v ∈ values := by
  cases m with
  | keep count highest => exact (perm_rank highest values).mem_iff.mp (List.mem_of_mem_take h)
  | drop count highest => exact (perm_rank highest values).mem_iff.mp (List.mem_of_mem_drop h)
  | _ => exact h

end Modifier

namespace Evaluation

open Draws (Returns answersTo)

/-! ## Selections -/

theorem length_foldl_picked {modifiers : List Modifier} (hm : ∀ m ∈ modifiers, m.Steady)
    (values : List Int) :
    ((modifiers.foldl (fun values m => m.picked values) values).length : Int) =
      modifiers.foldl Modifier.survivors values.length := by
  induction modifiers generalizing values with
  | nil => rfl
  | cons m modifiers ih =>
    obtain ⟨hfirst, hrest⟩ := List.forall_mem_cons.mp hm
    rw [List.foldl_cons, List.foldl_cons, ih hrest, hfirst.length_picked]

theorem mem_foldl_picked {modifiers : List Modifier} {values : List Int} {v : Int}
    (h : v ∈ modifiers.foldl (fun values m => m.picked values) values) : v ∈ values := by
  induction modifiers generalizing values with
  | nil => exact h
  | cons m modifiers ih => exact Modifier.mem_of_mem_picked (ih h)

theorem foldl_survivors_filter (modifiers : List Modifier) (k : Int) :
    (modifiers.filter (·.phase = .selection)).foldl Modifier.survivors k =
      modifiers.foldl Modifier.survivors k := by
  induction modifiers generalizing k with
  | nil => rfl
  | cons m modifiers ih =>
    by_cases hm : m.phase = .selection
    · rw [List.filter_cons_of_pos (by simpa using hm), List.foldl_cons, List.foldl_cons, ih]
    · rw [List.filter_cons_of_neg (by simpa using hm), List.foldl_cons,
        Modifier.survivors_of_phase hm, ih]

/-! ## Dice drawn again -/

/-- So many dice in play, all of them kept, and nothing but faces. -/
structure Rolled (range : Range) (number : Nat) (events : List Event) : Prop where
  faces : ∀ e ∈ events, range.low ≤ e.value ∧ e.value ≤ range.high
  undropped : ∀ e ∈ events, e.isDropped = false
  live : events.countP Event.isLive = number

variable {limits : Limits} {range : Range} {number : Nat} {before after events : List Event}
  {answers : List Int} {m : Modifier} {modifiers : List Modifier}

theorem rolled_drawn {d : Die} (hd : d.range?.isSome) {values : List Int}
    (h : ∀ v ∈ values, range.low ≤ v ∧ v ≤ range.high) :
    Rolled range values.length (values.map (.drawn d .initial)) := by
  refine ⟨?_, ?_, (countP_initial hd values).1⟩
  · intro e he
    obtain ⟨v, hv, rfl⟩ := List.mem_map.mp he
    exact h v hv
  · intro e he
    obtain ⟨v, _, rfl⟩ := List.mem_map.mp he
    rfl

theorem adds_again {t : Trigger} (ht : t = .rerollOnce ∨ t = .rerollWhile) (c : Chain) :
    t.adds c = discardAllButLast (c.drawn .reroll) := by
  rcases ht with rfl | rfl <;> rfl

theorem Rolled.step (h : Rolled range number before) (hm : m.Steady) (hphase : m.phase = .generation)
    {pool : List Bool} (hr : Returns (applyModifier limits m pool before) answers after)
    (ha : ∀ v ∈ answers, range.low ≤ v ∧ v ≤ range.high) : Rolled range number after := by
  obtain ⟨t, p, rfl, ht⟩ := hm.again hphase
  rw [applyModifier, applyTrigger_eq limits hphase] at hr
  obtain ⟨first, chains, rest, rfl, hchains, hdone⟩ := Draws.returns_bind_iff.mp hr
  obtain ⟨rfl, rfl⟩ := Draws.returns_done_iff.mp hdone
  obtain ⟨rfl, hmaximal, rfl⟩ := returns_drawChains hchains
  rw [List.append_nil] at ha
  -- whatever becomes of a die, what it shows stays
  have hmade : ∀ x ∈ chains.map t.settle ++ chains.flatMap t.adds,
      (∃ e ∈ chains.map Chain.event, x = e ∨ x = e.discard) ∨
        ∃ d, ∃ v ∈ chains.flatMap Chain.draws, x = Event.drawn d .reroll v ∨
          x = (Event.drawn d .reroll v).discard := by
    intro x hx
    rcases List.mem_append.mp hx with hx | hx
    · obtain ⟨c, hc, rfl⟩ := List.mem_map.mp hx
      refine .inl ⟨c.event, List.mem_map_of_mem hc, ?_⟩
      unfold Trigger.settle
      split
      · exact .inl rfl
      · exact .inr rfl
    · obtain ⟨c, hc, hx⟩ := List.mem_flatMap.mp hx
      rw [adds_again ht] at hx
      obtain ⟨y, hy, hxy⟩ := mem_discardAllButLast hx
      obtain ⟨v, hv, rfl⟩ := List.mem_map.mp hy
      exact .inr ⟨c.event.ownDie, v, List.mem_flatMap.mpr ⟨c, hc, hv⟩, hxy⟩
  refine ⟨?_, ?_, ?_⟩
  · intro x hx
    rcases hmade x hx with ⟨e, he, rfl | rfl⟩ | ⟨d, v, hv, rfl | rfl⟩
    · exact h.faces x he
    · exact h.faces e he
    · exact ha v hv
    · exact ha v hv
  · intro x hx
    rcases hmade x hx with ⟨e, he, rfl | rfl⟩ | ⟨d, v, hv, rfl | rfl⟩
    · exact h.undropped x he
    · rfl
    · rfl
    · rfl
  · have hlive := countP_made fun c hc => live_again ht (hmaximal c hc)
    have hbefore := h.live
    rw [List.countP_map] at hbefore
    rw [hlive]
    exact hbefore

theorem Rolled.run (h : Rolled range number before)
    (hm : ∀ m ∈ modifiers, m.Steady ∧ m.phase = .generation) {pool : Option (List Bool)}
    (hr : Returns (applyAll limits modifiers pool before) answers after)
    (ha : ∀ v ∈ answers, range.low ≤ v ∧ v ≤ range.high) : Rolled range number after := by
  induction modifiers generalizing pool before answers with
  | nil =>
    obtain ⟨_, rfl⟩ := Draws.returns_done_iff.mp hr
    exact h
  | cons m modifiers ih =>
    obtain ⟨⟨hsteady, hphase⟩, hrest⟩ := List.forall_mem_cons.mp hm
    obtain ⟨first, mid, rest, rfl, hmid, hlast⟩ := Draws.returns_bind_iff.mp hr
    obtain ⟨hfirst, hlater⟩ := List.forall_mem_append.mp ha
    exact ih (h.step hsteady hphase hmid hfirst) hrest hlast hlater

theorem Rolled.shown (h : Rolled range number events) :
    (shown events).length = number ∧ ∀ v ∈ shown events, range.low ≤ v ∧ v ≤ range.high := by
  constructor
  · have hnone : events.countP Event.isDroppedDie = 0 := by
      rw [List.countP_eq_zero]
      intro e he
      simp [Event.isDroppedDie, h.undropped e he]
    have hall := Event.countP_isLive events
    rw [hnone, h.live] at hall
    rw [length_shown_eq_countP]
    omega
  · intro v hv
    obtain ⟨e, he, rfl⟩ := List.mem_map.mp hv
    exact h.faces e (List.mem_filter.mp he).1

theorem Rolled.select (h : Rolled range number before) (limits : Limits)
    (hm : ∀ m ∈ modifiers, m.Steady ∧ m.phase = .selection) (pool : Option (List Bool)) :
    ∃ after, applyAll limits modifiers pool before = .done after ∧
      ((Evaluation.shown after).length : Int) = modifiers.foldl Modifier.survivors number ∧
      ∀ v ∈ Evaluation.shown after, range.low ≤ v ∧ v ≤ range.high := by
  obtain ⟨hnumber, hfaces⟩ := h.shown
  obtain ⟨after, hafter, hshown⟩ :=
    applyAll_selection limits (fun m hmem => (hm m hmem).2) pool before
  refine ⟨after, hafter, ?_, ?_⟩
  · rw [hshown.length_eq, length_foldl_picked fun m hmem => (hm m hmem).1, hnumber]
  · intro v hv
    exact hfaces v (mem_foldl_picked (hshown.mem_iff.mp hv))

/-! ## Constants -/

theorem applyAll_constants_eq (limits : Limits)
    (hm : ∀ m ∈ modifiers, ∃ sign value, m = .adjust (.known sign) value)
    (pool : Option (List Bool)) (events : List Event) :
    applyAll limits modifiers pool events =
      .done (events ++ (amounts modifiers).map (.summary .constant)) := by
  induction modifiers generalizing pool events with
  | nil => simp [applyAll, amounts]
  | cons m modifiers ih =>
    obtain ⟨⟨sign, value, rfl⟩, hrest⟩ := List.forall_mem_cons.mp hm
    rw [applyAll_cons, applyModifier, Draws.done_bind, ih hrest, adjust, List.append_assoc]
    rfl

theorem amounts_filter (modifiers : List Modifier) :
    amounts (modifiers.filter (·.phase = .finalization)) = amounts modifiers := by
  rw [amounts, amounts, List.filterMap_filter]
  refine List.filterMap_congr ?_
  intro m _
  cases m with
  | onMatch t p => cases t <;> rfl
  | _ => rfl

/-! ## Rolls -/

theorem keptSum_unmarked (hs : ∀ e ∈ events, e.Unmarked) :
    keptSum events = (Evaluation.shown events).sum := by
  have hkept : events.filter Event.isKept = events.filter Event.isKeptDie := by
    refine List.filter_congr ?_
    intro e he
    rw [Event.isKeptDie, (hs e he).isDie, Bool.and_true]
  rw [keptSum, hkept, total_eq_sum]
  rfl

theorem sum_bounds {values : List Int} (h : ∀ v ∈ values, range.low ≤ v ∧ v ≤ range.high) :
    values.length * range.low ≤ values.sum ∧ values.sum ≤ values.length * range.high := by
  have hlow := List.card_nsmul_le_sum values range.low fun v hv => (h v hv).1
  have hhigh := List.sum_le_card_nsmul values range.high fun v hv => (h v hv).2
  rw [nsmul_eq_mul] at hlow hhigh
  exact ⟨hlow, hhigh⟩

theorem steady_of_mem_filter (hm : ∀ m ∈ modifiers, m.Steady) (p : Phase) :
    ∀ m ∈ modifiers.filter (·.phase = p), m.Steady ∧ m.phase = p := by
  intro m hmem
  obtain ⟨hmem, hphase⟩ := List.mem_filter.mp hmem
  exact ⟨hm m hmem, of_decide_eq_true hphase⟩

theorem phase_ne_of_mem_filter {p q : Phase} (h : p ≠ q) :
    ∀ m ∈ modifiers.filter (·.phase = p), m.phase ≠ q := by
  intro m hmem
  rw [of_decide_eq_true (List.mem_filter.mp hmem).2]
  exact h

/-- The dice that are left of a pool show faces, whatever they are. -/
theorem returns_steady (hm : ∀ m ∈ modifiers, m.Steady) {d : Die} (hd : d.range?.isSome)
    {first rest : List Int}
    (h : Returns (applyAll limits (phased modifiers) none (first.map (.drawn d .initial))) rest after)
    (hfirst : ∀ v ∈ first, range.low ≤ v ∧ v ≤ range.high)
    (hrest : ∀ v ∈ rest, range.low ≤ v ∧ v ≤ range.high) :
    ∃ selected, (∀ e ∈ selected, e.Unmarked) ∧
      ((Evaluation.shown selected).length : Int) =
        modifiers.foldl Modifier.survivors first.length ∧
      (∀ v ∈ Evaluation.shown selected, range.low ≤ v ∧ v ≤ range.high) ∧
      after = selected ++ (amounts modifiers).map (.summary .constant) := by
  have hgeneration := steady_of_mem_filter hm .generation
  have hselection := steady_of_mem_filter hm .selection
  have hdrawn : ∀ m ∈ modifiers.filter (·.phase = .generation), m.phase ≠ .finalization :=
    phase_ne_of_mem_filter (by decide)
  have hchosen : ∀ m ∈ modifiers.filter (·.phase = .selection), m.phase ≠ .finalization :=
    phase_ne_of_mem_filter (by decide)
  have hconstants : ∀ m ∈ modifiers.filter (·.phase = .finalization),
      ∃ sign value, m = .adjust (.known sign) value := by
    intro m hmem
    obtain ⟨hsteady, hphase⟩ := steady_of_mem_filter hm .finalization m hmem
    exact hsteady.constant hphase
  rw [phased_eq_of_known fun m hmem => (hm m hmem).known, applyAll_append limits hdrawn] at h
  obtain ⟨front, rolled, more, rfl, hrolled, hlater⟩ := Draws.returns_bind_iff.mp h
  have hstart := rolled_drawn hd hfirst
  have hmiddle := hstart.run hgeneration hrolled (List.forall_mem_append.mp hrest).1
  obtain ⟨selected, hselected, hnumber, hfaces⟩ := hmiddle.select limits hselection none
  rw [applyAll_append limits hchosen, hselected, Draws.done_bind,
    applyAll_constants_eq limits hconstants, amounts_filter] at hlater
  obtain ⟨_, rfl⟩ := Draws.returns_done_iff.mp hlater
  rw [foldl_survivors_filter] at hnumber
  have hunmarked : ∀ e ∈ rolled, e.Unmarked := by
    refine unmarked_applyAll hdrawn hrolled ?_
    intro e he
    obtain ⟨v, _, rfl⟩ := List.mem_map.mp he
    exact ⟨isDie_drawn hd _ _, rfl⟩
  have hreturns : Returns (applyAll limits (modifiers.filter (·.phase = .selection)) none rolled) []
      selected := by
    rw [hselected]
    exact .done
  exact ⟨selected, unmarked_applyAll hchosen hreturns hunmarked, hnumber, hfaces, rfl⟩

variable {σ : Type} [RandomSource σ]

/-- A pool whose modifiers draw dice again, keep and drop some, and add constants, has a value on
every source that answers within the bounds asked for. The number of dice that are left is known
beforehand, however often they are drawn again and however many more are asked for than there are:
the value lies between as many times the least and the greatest face, apart from the constants. -/
theorem static_range (limits : Limits) (count : Nat) {kind : DieKind} {range : Range}
    (hkind : kind.range? = some range) {modifiers : List Modifier}
    (hm : ∀ m ∈ modifiers, m.Steady) {s : σ} :
    let run := ((Node.pool count (.die (.fresh kind)) (modifiers.map .modifier)).evaluate
      limits).run s
    let k := modifiers.foldl Modifier.survivors count
    let constants := (amounts modifiers).sum
    Draws.Answered s run.requests →
      ∃ e, run.result = .ok e ∧ (e.events.countP Event.isKeptDie : Int) = k ∧
        k * range.low + constants ≤ e.value ∧ e.value ≤ k * range.high + constants := by
  intro run k constants hanswered
  have hknown : (Node.pool count (.die (.fresh kind)) (modifiers.map .modifier)).Known :=
    .pool count (Option.isSome_of_eq_some hkind) fun m hmem => (hm m hmem).known
  obtain ⟨e, he⟩ := (faultless_evaluate limits hknown).exists_result hanswered
  have hrequests : ∀ r ∈ run.requests, r = range.request :=
    (confined_pool limits count hkind (modifiers.map .modifier)).requests s
  have hfaces : ∀ v ∈ answersTo s run.requests, range.low ≤ v ∧ v ≤ range.high := by
    intro v hv
    obtain ⟨r, hr, hzip⟩ := Draws.exists_request he hv
    obtain ⟨hlow, hhigh⟩ := List.forall₂_iff_zip.mp hanswered |>.2 hzip
    rw [hrequests r hr] at hlow hhigh
    exact ⟨hlow, Int.lt_add_one_iff.mp hhigh⟩
  obtain ⟨d, ms, first, rest, hd, hms, hanswers, hlength, happly, hvalue⟩ :=
    returns_evaluatePool (Draws.returns_answersTo he).1
  rw [modifiersOf_map] at hms
  cases hms
  rw [show answersTo s run.requests = first ++ rest from hanswers] at hfaces
  obtain ⟨hfirst, hrest⟩ := List.forall_mem_append.mp hfaces
  obtain ⟨selected, hs, hk, hshown, hevents⟩ :=
    returns_steady hm (isSome_range_of_poolDie? hd) happly hfirst hrest
  rw [hlength, Int.toNat_natCast] at hk
  have hnone : ((amounts modifiers).map (Event.summary .constant)).countP Event.isKeptDie = 0 := by
    rw [List.countP_eq_zero]
    intro x hx
    obtain ⟨v, _, rfl⟩ := List.mem_map.mp hx
    exact Bool.false_ne_true
  have hconstants : keptSum ((amounts modifiers).map (.summary .constant)) = constants := by
    rw [keptSum, List.filter_eq_self.mpr, total_constants]
    intro x hx
    obtain ⟨v, _, rfl⟩ := List.mem_map.mp hx
    rfl
  obtain ⟨hlow, hhigh⟩ := sum_bounds hshown
  rw [hk] at hlow hhigh
  rw [hevents, keptSum_append, keptSum_unmarked hs, hconstants] at hvalue
  refine ⟨e, he, ?_, ?_, ?_⟩
  · rw [hevents, List.countP_append, hnone, Nat.add_zero, ← length_shown_eq_countP]
    exact hk
  · rw [hvalue]
    exact Int.add_le_add_right hlow constants
  · rw [hvalue]
    exact Int.add_le_add_right hhigh constants

/-- `4dFro<0kh3dl1-3`, where a minus is drawn again as a minus and another one as a plus. -/
theorem static_range_fudge :
    let modifiers : List Modifier := [.onMatch .rerollOnce ⟨.known .less, 0⟩, .keep 3 true,
      .drop 1 false, .adjust (.known .minus) 3]
    let s := Source.ofValues [-1, 0, 1, -1, -1, 1]
    let run := ((Node.pool 4 (.die (.fresh .fudge)) (modifiers.map .modifier)).evaluate
      .standard).run s
    (∀ m ∈ modifiers, m.Steady) ∧ Draws.Answered s run.requests ∧ run.requests.length = 6 ∧
      modifiers.foldl Modifier.survivors 4 = 2 ∧ (amounts modifiers).sum = -3 ∧
      ∃ e, run.result = .ok e ∧ (e.events.countP Event.isKeptDie : Int) = 2 ∧
        2 * -1 + -3 ≤ e.value ∧ e.value ≤ 2 * 1 + -3 := by
  intro modifiers s run
  have hm : ∀ m ∈ modifiers, m.Steady := by
    simp only [modifiers, List.forall_mem_cons]
    exact ⟨.rerollOnce ⟨_, rfl⟩, .keep _ (by decide), .drop _ (by decide), .adjust _ _, by simp⟩
  have hrequests : run.requests = List.replicate 6 ⟨-1, 2⟩ := rfl
  have hanswered : Draws.Answered s run.requests := by
    rw [hrequests]
    simp [Draws.Answered, s, answersTo, RandomSource.next, Source.answer, Source.ofValues]
  have hkind : DieKind.fudge.range? = some ⟨-1, 1⟩ := rfl
  exact ⟨hm, hanswered, rfl, rfl, rfl, static_range .standard 4 hkind hm hanswered⟩

end Evaluation

end Dice
