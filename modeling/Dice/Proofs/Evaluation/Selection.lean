import Mathlib.Algebra.GroupWithZero.Nat
import Mathlib.Data.List.Permutation
import Mathlib.Logic.Function.Iterate
import Dice.Proofs.Evaluation.Ranking

/-!
# Dice.Proofs.Evaluation.Selection

Dice that are kept and dropped by rank one time after another.

* `dropPlaces_dropPlaces`, `dropPlaces_congr` : only the places dropped in all matter.
* `ranking_unique` : a list of the dice that count, each in front of those it outranks, is the
  ranking.
* `ranking_dropPlaces` : dice that are dropped leave the ranking, and the others stay in order.
* `keep_keep`, `drop_drop` : selecting again from the same end goes on in the same ranking.
* `drop_one_comm`, `drop_comm` : the best die and the worst do not get in each other's way.
* `selection_algebra` : so a list of drops comes to one drop from each end.
-/

namespace Dice

namespace Evaluation

variable {highest : Bool} {events : List Event} {i j : Nat}

/-! ## Places dropped one after another -/

theorem dropPlaces_nil (events : List Event) : dropPlaces [] events = events := by
  refine List.ext_getElem? fun i => ?_
  simp [getElem?_dropPlaces]

theorem dropPlaces_dropPlaces (first second : List Nat) (events : List Event) :
    dropPlaces second (dropPlaces first events) = dropPlaces (first ++ second) events := by
  refine List.ext_getElem? fun i => ?_
  simp only [getElem?_dropPlaces, Option.map_map]
  congr 1
  funext e
  by_cases h1 : i ∈ first <;> by_cases h2 : i ∈ second <;> simp [h1, h2, Event.dropped]

/-- It does not matter in which order places are given, or how often. -/
theorem dropPlaces_congr {dropped dropped' : List Nat} (h : ∀ i, i ∈ dropped ↔ i ∈ dropped')
    (events : List Event) : dropPlaces dropped events = dropPlaces dropped' events := by
  refine List.ext_getElem? fun i => ?_
  simp [getElem?_dropPlaces, h]

/-! ## The ranking of what is left -/

theorem Outranks.ne (h : Outranks highest events i j) : i ≠ j := by
  intro hij
  subst hij
  exact h.asymm h

/-- The values decide, and whether a die counts does not. -/
theorem outranks_dropPlaces {dropped : List Nat} :
    Outranks highest (dropPlaces dropped events) i j ↔ Outranks highest events i j := by
  have hvalue (k : Nat) (e : Event) :
      (if dropped.contains k then e.dropped else e).value = e.value := by
    split <;> rfl
  simp only [Outranks, getElem?_dropPlaces, Option.map_eq_some_iff]
  constructor
  · rintro ⟨_, _, ⟨a, ha, rfl⟩, ⟨b, hb, rfl⟩, h⟩
    rw [hvalue, hvalue] at h
    exact ⟨a, b, ha, hb, h⟩
  · rintro ⟨a, b, ha, hb, h⟩
    refine ⟨_, _, ⟨a, ha, rfl⟩, ⟨b, hb, rfl⟩, ?_⟩
    rw [hvalue, hvalue]
    exact h

theorem ranking_unique {places : List Nat} (hsorted : places.Pairwise (Outranks highest events))
    (hmem : ∀ i, i ∈ places ↔ i ∈ keptPlaces events) : places = ranking highest events := by
  have hperm : places.Perm (ranking highest events) := by
    refine (List.perm_ext_iff_of_nodup (hsorted.imp Outranks.ne) (nodup_ranking _ _)).mpr ?_
    intro i
    rw [hmem, mem_ranking]
  refine hperm.eq_of_pairwise ?_ hsorted (pairwise_ranking _ _)
  intro i j _ _ hij hji
  exact absurd hji hij.asymm

theorem ranking_dropPlaces (highest : Bool) (dropped : List Nat) (events : List Event) :
    ranking highest (dropPlaces dropped events) =
      (ranking highest events).filter fun i => i ∉ dropped := by
  symm
  refine ranking_unique ?_ ?_
  · refine ((pairwise_ranking highest events).imp ?_).filter _
    intro i j h
    exact outranks_dropPlaces.mpr h
  · intro i
    rw [(drops_dropPlaces dropped events).keptPlaces]
    simp [mem_ranking]

/-! ## Selecting again from the same end -/

/-- Of places that are all different, those in front are left without those behind, and those behind
without those in front. -/
theorem filter_notMem_append {front back : List Nat} (h : (front ++ back).Nodup) :
    (front ++ back).filter (fun i => i ∉ back) = front ∧
      (front ++ back).filter (fun i => i ∉ front) = back := by
  have hapart := List.disjoint_of_nodup_append h
  rw [List.filter_append, List.filter_append]
  constructor
  · rw [List.filter_eq_self.mpr, List.filter_eq_nil_iff.mpr, List.append_nil]
    · simp
    · intro i hi
      simpa using hapart hi
  · rw [List.filter_eq_nil_iff.mpr, List.filter_eq_self.mpr, List.nil_append]
    · intro i hi
      simpa using fun hi' => hapart hi' hi
    · simp

theorem ranking_split (highest : Bool) (events : List Event) (n : Nat) :
    (ranking highest events).filter (fun i => i ∉ (ranking highest events).drop n) =
        (ranking highest events).take n ∧
      (ranking highest events).filter (fun i => i ∉ (ranking highest events).take n) =
        (ranking highest events).drop n := by
  have hnodup := nodup_ranking highest events
  rw [← List.take_append_drop n (ranking highest events)] at hnodup
  have hsplit := filter_notMem_append hnodup
  rwa [List.take_append_drop] at hsplit

theorem ranking_keep (count : Int) (highest : Bool) (events : List Event) :
    ranking highest (keep count highest events) = (ranking highest events).take
      (selectedCount count (ranking highest events).length) := by
  rw [keep, ranking_dropPlaces, (ranking_split _ _ _).1]

theorem ranking_drop (count : Int) (highest : Bool) (events : List Event) :
    ranking highest (drop count highest events) = (ranking highest events).drop
      (selectedCount count (ranking highest events).length) := by
  rw [drop, ranking_dropPlaces, (ranking_split _ _ _).2]

theorem selectedCount_natCast (count total : Nat) : selectedCount count total = min count total := by
  simp [selectedCount]

/-- A count beyond the number of dice selects them all. -/
theorem keep_natCast (count : Nat) (highest : Bool) (events : List Event) :
    keep count highest events = dropPlaces ((ranking highest events).drop count) events ∧
      ranking highest (keep count highest events) = (ranking highest events).take count := by
  rw [ranking_keep, keep, selectedCount_natCast, ← List.take_eq_take_min]
  refine ⟨?_, rfl⟩
  by_cases h : count ≤ (ranking highest events).length
  · rw [Nat.min_eq_left h]
  · rw [Nat.min_eq_right (by omega), List.drop_length, List.drop_eq_nil_of_le (by omega)]

theorem drop_natCast (count : Nat) (highest : Bool) (events : List Event) :
    drop count highest events = dropPlaces ((ranking highest events).take count) events ∧
      ranking highest (drop count highest events) = (ranking highest events).drop count := by
  rw [ranking_drop, drop, selectedCount_natCast, ← List.take_eq_take_min]
  refine ⟨rfl, ?_⟩
  by_cases h : count ≤ (ranking highest events).length
  · rw [Nat.min_eq_left h]
  · rw [Nat.min_eq_right (by omega), List.drop_length, List.drop_eq_nil_of_le (by omega)]

theorem keep_keep (a b : Nat) (highest : Bool) (events : List Event) :
    keep b highest (keep a highest events) = keep (min a b : Nat) highest events := by
  obtain ⟨hfirst, hranking⟩ := keep_natCast a highest events
  rw [(keep_natCast b _ _).1, (keep_natCast (min a b) _ _).1, hranking, hfirst,
    dropPlaces_dropPlaces]
  refine dropPlaces_congr ?_ events
  intro i
  rw [List.drop_take, List.mem_append]
  by_cases h : b ≤ a
  · -- what the second one drops stands in front of what the first one has dropped
    have hrest : (ranking highest events).drop a =
        ((ranking highest events).drop b).drop (a - b) := by
      rw [List.drop_drop, Nat.add_sub_cancel' h]
    rw [Nat.min_eq_right h, hrest, or_comm, ← List.mem_append, List.take_append_drop]
  · have hnone : a - b = 0 := by omega
    rw [Nat.min_eq_left (by omega), hnone, List.take_zero]
    simp

theorem drop_drop (a b : Nat) (highest : Bool) (events : List Event) :
    drop b highest (drop a highest events) = drop (a + b : Nat) highest events := by
  obtain ⟨hfirst, hranking⟩ := drop_natCast a highest events
  rw [(drop_natCast b _ _).1, (drop_natCast (a + b) _ _).1, hranking, hfirst,
    dropPlaces_dropPlaces, List.take_add]

theorem drop_zero (highest : Bool) (events : List Event) : drop (0 : Nat) highest events = events := by
  rw [(drop_natCast 0 highest events).1, List.take_zero, dropPlaces_nil]

/-! ## Dropping from both ends -/

theorem perm_ranking (highest highest' : Bool) (events : List Event) :
    (ranking highest events).Perm (ranking highest' events) := by
  refine (List.perm_ext_iff_of_nodup (nodup_ranking _ _) (nodup_ranking _ _)).mpr ?_
  intro i
  rw [mem_ranking, mem_ranking]

/-- A die that goes first in both orders shows what all others show. -/
theorem outranks_of_first {first : Nat} (hi : Outranks true events first i)
    (hi' : Outranks false events first i) (hj : Outranks true events first j)
    (hj' : Outranks false events first j) (h : Outranks true events i j) :
    Outranks false events i j := by
  have hsame {k : Nat} (hk : Outranks true events first k) (hk' : Outranks false events first k) :
      ∃ a b, events[first]? = some a ∧ events[k]? = some b ∧ a.value = b.value := by
    obtain ⟨a, b, ha, hb, hab⟩ := hk
    obtain ⟨a', b', ha', hb', hab'⟩ := hk'
    cases ha.symm.trans ha'
    cases hb.symm.trans hb'
    refine ⟨a, b, ha, hb, ?_⟩
    simp only [if_true, Bool.false_eq_true, if_false] at hab hab'
    omega
  obtain ⟨a, b, ha, hb, hab⟩ := hsame hi hi'
  obtain ⟨a', c, ha', hc, hac⟩ := hsame hj hj'
  obtain ⟨b', c', hb', hc', hbc⟩ := h
  cases ha.symm.trans ha'
  cases hb.symm.trans hb'
  cases hc.symm.trans hc'
  refine ⟨b, c, hb, hc, ?_⟩
  simp only [if_true, Bool.false_eq_true, if_false] at hbc ⊢
  omega

/-- If one die goes first in both orders, the others stand in the same order in both. -/
theorem rest_eq_of_first_eq {first : Nat} {best worst : List Nat}
    (hbest : ranking true events = first :: best) (hworst : ranking false events = first :: worst) :
    best = worst := by
  have hperm := perm_ranking true false events
  have hsorted := pairwise_ranking true events
  have hsorted' := pairwise_ranking false events
  rw [hbest, hworst] at hperm
  rw [hbest, List.pairwise_cons] at hsorted
  rw [hworst, List.pairwise_cons] at hsorted'
  have hrest : best.Perm worst := hperm.cons_inv
  have hboth : best.Pairwise (Outranks false events) := by
    refine hsorted.2.imp_of_mem ?_
    intro i j hi hj h
    exact outranks_of_first (hsorted.1 i hi) (hsorted'.1 i (hrest.subset hi)) (hsorted.1 j hj)
      (hsorted'.1 j (hrest.subset hj)) h
  refine hrest.eq_of_pairwise ?_ hboth hsorted'.2
  intro i j _ _ hij hji
  exact absurd hji hij.asymm

/-- The best die and the worst are two dice, or all dice show the same and are dropped as they
stand. -/
theorem drop_one_comm (events : List Event) :
    drop (1 : Nat) false (drop (1 : Nat) true events) =
      drop (1 : Nat) true (drop (1 : Nat) false events) := by
  have hperm := perm_ranking true false events
  rw [(drop_natCast 1 false _).1, (drop_natCast 1 true (drop _ _ _)).1,
    (drop_natCast 1 true events).1, (drop_natCast 1 false events).1, ranking_dropPlaces,
    ranking_dropPlaces, dropPlaces_dropPlaces, dropPlaces_dropPlaces]
  refine dropPlaces_congr ?_ events
  intro i
  cases hr : ranking true events with
  | nil =>
    have hr' : ranking false events = [] := by rw [hr] at hperm; exact hperm.nil_eq.symm
    rw [hr']
  | cons x best =>
    cases hr' : ranking false events with
    | nil =>
      rw [hr, hr'] at hperm
      exact absurd hperm.symm.nil_eq (by simp)
    | cons y worst =>
      by_cases hxy : x = y
      · subst hxy
        rw [rest_eq_of_first_eq hr hr']
      · simp [hxy, Ne.symm hxy, or_comm]

/-- Many dice are dropped by dropping one again and again. -/
theorem drop_eq_iterate (count : Nat) (highest : Bool) :
    drop count highest = (drop (1 : Nat) highest)^[count] := by
  induction count with
  | zero =>
    funext events
    exact drop_zero highest events
  | succ count ih =>
    funext events
    rw [Function.iterate_succ_apply', ← ih, drop_drop]

theorem drop_comm (a b : Nat) (events : List Event) :
    drop b false (drop a true events) = drop a true (drop b false events) := by
  have hone : Function.Commute (drop (1 : Nat) false) (drop (1 : Nat) true) := drop_one_comm
  rw [drop_eq_iterate a, drop_eq_iterate b]
  exact hone.iterate_iterate b a events

/-- What drops from one end come to. -/
def dropTotal (highest : Bool) (drops : List (Nat × Bool)) : Nat :=
  ((drops.filter (·.2 = highest)).map (·.1)).sum

theorem applyAll_drops (limits : Limits) (drops : List (Nat × Bool)) (pool : Option (List Bool))
    (events : List Event) :
    applyAll limits (drops.map fun d => .drop d.1 d.2) pool events =
      .done (drop (dropTotal false drops) false (drop (dropTotal true drops) true events)) := by
  induction drops generalizing events with
  | nil =>
    have hnone (highest : Bool) : dropTotal highest [] = 0 := rfl
    rw [hnone, hnone, drop_zero, drop_zero]
    rfl
  | cons d drops ih =>
    obtain ⟨count, highest⟩ := d
    have hfirst : applyAll limits (((count, highest) :: drops).map fun d => .drop d.1 d.2) pool
        events = applyAll limits (drops.map fun d => .drop d.1 d.2) pool
          (drop count highest events) := rfl
    rw [hfirst, ih]
    cases highest with
    | true =>
      have htrue : dropTotal true ((count, true) :: drops) = count + dropTotal true drops := by
        simp [dropTotal]
      have hfalse : dropTotal false ((count, true) :: drops) = dropTotal false drops := by
        simp [dropTotal]
      rw [drop_drop, htrue, hfalse]
    | false =>
      have htrue : dropTotal true ((count, false) :: drops) = dropTotal true drops := by
        simp [dropTotal]
      have hfalse : dropTotal false ((count, false) :: drops) = count + dropTotal false drops := by
        simp [dropTotal]
      rw [← drop_comm, drop_drop, htrue, hfalse]

/-- Keeping twice from one end is keeping the lesser number, and dropping twice is dropping both
numbers. Dice dropped from the two ends may be dropped in either order, so a list of drops comes to
one drop from each end. -/
theorem selection_algebra (limits : Limits) (pool : Option (List Bool)) (events : List Event) :
    (∀ (a b : Nat) (highest : Bool), ∃ after,
      applyAll limits [.keep a highest, .keep b highest] pool events = .done after ∧
      applyAll limits [.keep (min a b : Nat) highest] pool events = .done after) ∧
    (∀ (a b : Nat) (highest : Bool), ∃ after,
      applyAll limits [.drop a highest, .drop b highest] pool events = .done after ∧
      applyAll limits [.drop (a + b : Nat) highest] pool events = .done after) ∧
    (∀ a b : Nat, ∃ after,
      applyAll limits [.drop a true, .drop b false] pool events = .done after ∧
      applyAll limits [.drop b false, .drop a true] pool events = .done after) ∧
    ∀ drops : List (Nat × Bool), ∃ after,
      applyAll limits (drops.map fun d => .drop d.1 d.2) pool events = .done after ∧
      applyAll limits [.drop (dropTotal true drops) true, .drop (dropTotal false drops) false] pool
        events = .done after := by
  refine ⟨?_, ?_, ?_, ?_⟩
  · intro a b highest
    exact ⟨_, rfl, by rw [keep_keep]; rfl⟩
  · intro a b highest
    exact ⟨_, rfl, by rw [drop_drop]; rfl⟩
  · intro a b
    exact ⟨_, rfl, by rw [drop_comm]; rfl⟩
  · intro drops
    exact ⟨_, applyAll_drops limits drops pool events, rfl⟩

/-- Three fives and a two. Keeping the worst three and then two keeps the first five and the two. A drop
from each end takes the first five as the best, then the two and the second five as the worst. Drops
of five from one end and one from the other leave none of the four. -/
theorem selection_algebra_four_dice :
    let dice := [5, 2, 5, 5].map (Event.drawn (.fresh (.sided 6)) .initial)
    let run (modifiers : List Modifier) := applyAll .standard modifiers none dice
    (∃ after, run [.keep 3 false, .keep 2 false] = .done after ∧
      run [.keep 2 false] = .done after ∧
      after.map Event.status = [.kept, .kept, .dropped, .dropped]) ∧
    (∃ after, run [.drop 1 true, .drop 2 false] = .done after ∧
      run [.drop 2 false, .drop 1 true] = .done after ∧
      after.map Event.status = [.dropped, .dropped, .dropped, .kept]) ∧
    ∃ after, run [.drop 2 true, .drop 1 false, .drop 3 true] = .done after ∧
      run [.drop 5 true, .drop 1 false] = .done after ∧
      after.map Event.status = [.dropped, .dropped, .dropped, .dropped] := by
  intro dice run
  obtain ⟨hkeeps, _, hends, hdrops⟩ := selection_algebra .standard none dice
  refine ⟨?_, ?_, ?_⟩
  · obtain ⟨after, htwice, honce⟩ := hkeeps 3 2 false
    refine ⟨after, htwice, honce, ?_⟩
    obtain rfl : keep 2 false dice = after := Draws.done.inj honce
    cbv
  · obtain ⟨after, hfirst, hlast⟩ := hends 1 2
    refine ⟨after, hfirst, hlast, ?_⟩
    obtain rfl : drop 2 false (drop 1 true dice) = after := Draws.done.inj hfirst
    cbv
  · obtain ⟨after, hall, hboth⟩ := hdrops [(2, true), (1, false), (3, true)]
    refine ⟨after, hall, hboth, ?_⟩
    obtain rfl : drop 1 false (drop 5 true dice) = after := Draws.done.inj hboth
    cbv

end Evaluation

end Dice
