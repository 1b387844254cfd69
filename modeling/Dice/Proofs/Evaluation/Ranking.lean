import Mathlib.Data.Finset.Card
import Mathlib.Data.Finset.Range
import Mathlib.Data.List.Pairwise
import Dice.Proofs.Evaluation.LifeCycle

/-!
# Dice.Proofs.Evaluation.Ranking

Which dice are kept and dropped by rank.

* `keptPlaces` : the places of the dice that count.
* `Outranks` : a better value goes first, and of equal ones the earlier place.
* `pairwise_ranking` : the ranking lists the dice that count, each in front of those it outranks.
* `Best` : a number of dice none of which is outranked by another one.
* `best_take`, `Best.unique` : the ranking starts with them, and there are no others.
* `keep_drop_best` : keeping leaves just those dice, and dropping leaves all but those.
-/

namespace Dice

namespace Evaluation

variable {highest : Bool} {events before after : List Event} {i j number : Nat}

def keptPlaces (events : List Event) : Finset Nat :=
  (Finset.range events.length).filter fun i => events[i]?.any Event.isKeptDie

theorem mem_keptPlaces :
    i ∈ keptPlaces events ↔ ∃ e, events[i]? = some e ∧ e.isKeptDie = true := by
  rw [keptPlaces, Finset.mem_filter, Finset.mem_range, Option.any_eq_true]
  refine and_iff_right_of_imp ?_
  rintro ⟨e, he, _⟩
  obtain ⟨hi, _⟩ := List.getElem?_eq_some_iff.mp he
  exact hi

/-- The die at the first place goes before the one at the second. -/
def Outranks (highest : Bool) (events : List Event) (i j : Nat) : Prop :=
  ∃ a b, events[i]? = some a ∧ events[j]? = some b ∧
    ((if highest then b.value < a.value else a.value < b.value) ∨ a.value = b.value ∧ i < j)

theorem Outranks.asymm (h : Outranks highest events i j) : ¬ Outranks highest events j i := by
  rintro ⟨b, a, hb, ha, h'⟩
  obtain ⟨a', b', ha', hb', h⟩ := h
  cases ha.symm.trans ha'
  cases hb.symm.trans hb'
  cases highest <;> simp only [if_true, Bool.false_eq_true, if_false] at h h' <;> omega

/-! ## The ranking -/

/-- A stable sort leaves items as they stand that may come in any order. -/
theorem filter_mergeSort_of_ties {α : Type} {le : α → α → Bool}
    (htrans : ∀ a b c, le a b = true → le b c = true → le a c = true)
    (htotal : ∀ a b, (le a b || le b a) = true) {p : α → Bool}
    (hties : ∀ a b, p a = true → p b = true → le a b = true) (items : List α) :
    (items.mergeSort le).filter p = items.filter p := by
  have hsame : (items.filter p).Pairwise fun a b => le a b = true := by
    refine List.pairwise_of_forall_mem_list ?_
    intro a ha b hb
    exact hties a b (List.mem_filter.mp ha).2 (List.mem_filter.mp hb).2
  have hsorted := List.sublist_mergeSort htrans htotal hsame List.filter_sublist
  have hfilter := hsorted.filter p
  rw [List.filter_filter, funext fun _ => Bool.and_self _] at hfilter
  have hperm := (List.mergeSort_perm items le).filter p
  exact (hfilter.eq_of_length hperm.length_eq.symm).symm

section Rank

variable {α : Type} (value : α → Int) (highest : Bool)

theorem precedes_trans (a b c : α) (hab : precedes highest (value a) (value b) = true)
    (hbc : precedes highest (value b) (value c) = true) :
    precedes highest (value a) (value c) = true := by
  cases highest <;> simp only [precedes, if_true, Bool.false_eq_true, if_false, decide_eq_true_eq]
    at hab hbc ⊢ <;> omega

theorem precedes_total (a b : α) :
    (precedes highest (value a) (value b) || precedes highest (value b) (value a)) = true := by
  cases highest <;> simp only [precedes, if_true, Bool.false_eq_true, if_false, Bool.or_eq_true,
    decide_eq_true_eq] <;> omega

theorem pairwise_rank (items : List α) :
    (rank value highest items).Pairwise fun a b => precedes highest (value a) (value b) = true :=
  List.pairwise_mergeSort (precedes_trans value highest) (precedes_total value highest) items

/-- Items of one value stay as they stand. -/
theorem filter_rank (items : List α) (v : Int) :
    (rank value highest items).filter (value · = v) = items.filter (value · = v) := by
  refine filter_mergeSort_of_ties (precedes_trans value highest) (precedes_total value highest) ?_
    items
  intro a b ha hb
  rw [of_decide_eq_true ha, of_decide_eq_true hb]
  simp [precedes]

end Rank

theorem mem_places {condition : Event → Bool} {item : Event × Nat} :
    item ∈ places condition events ↔ events[item.2]? = some item.1 ∧ condition item.1 = true := by
  rw [places, List.mem_filter, List.mem_zipIdx_iff_getElem?]

/-- Places are listed from the first to the last. -/
theorem pairwise_places (condition : Event → Bool) (events : List Event) :
    (places condition events).Pairwise fun a b => a.2 < b.2 := by
  refine List.Pairwise.filter _ (List.pairwise_iff_getElem.mpr ?_)
  intro i j hi hj hij
  simpa using hij

theorem outranks_of_precedes {a b : Event × Nat} (ha : events[a.2]? = some a.1)
    (hb : events[b.2]? = some b.1) (hle : precedes highest a.1.value b.1.value = true)
    (hties : a.1.value = b.1.value → a.2 < b.2) : Outranks highest events a.2 b.2 := by
  refine ⟨a.1, b.1, ha, hb, ?_⟩
  by_cases hv : a.1.value = b.1.value
  · exact .inr ⟨hv, hties hv⟩
  · refine .inl ?_
    cases highest <;> simp only [precedes, if_true, Bool.false_eq_true, if_false,
      decide_eq_true_eq] at hle ⊢ <;> omega

theorem pairwise_ranking (highest : Bool) (events : List Event) :
    (ranking highest events).Pairwise (Outranks highest events) := by
  rw [ranking, List.pairwise_map, List.pairwise_iff_forall_sublist]
  intro a b hab
  have hmem {item : Event × Nat} (h : item ∈ [a, b]) : events[item.2]? = some item.1 :=
    (mem_places.mp (List.mem_mergeSort.mp (hab.subset h))).1
  have hle := List.pairwise_iff_forall_sublist.mp (pairwise_rank _ highest _) hab
  refine outranks_of_precedes (hmem (by simp)) (hmem (by simp)) hle fun hv => ?_
  -- dice of one value are ranked as they stand
  have hsame := hab.filter (fun item : Event × Nat => item.1.value = b.1.value)
  rw [filter_rank (fun item : Event × Nat => item.1.value)] at hsame
  have hpair : [a, b].filter (fun item : Event × Nat => item.1.value = b.1.value) = [a, b] := by
    simp [hv]
  rw [hpair] at hsame
  exact List.pairwise_iff_forall_sublist.mp (pairwise_places _ _)
    (hsame.trans List.filter_sublist)

theorem mem_ranking : i ∈ ranking highest events ↔ i ∈ keptPlaces events := by
  rw [ranking, List.mem_map, mem_keptPlaces]
  constructor
  · rintro ⟨item, hitem, rfl⟩
    exact ⟨item.1, mem_places.mp (List.mem_mergeSort.mp hitem)⟩
  · rintro ⟨e, he⟩
    exact ⟨(e, i), List.mem_mergeSort.mpr (mem_places.mpr he), rfl⟩

theorem nodup_ranking (highest : Bool) (events : List Event) : (ranking highest events).Nodup :=
  (pairwise_ranking highest events).imp fun h heq => (heq ▸ h).asymm (heq ▸ h)

theorem toFinset_ranking (highest : Bool) (events : List Event) :
    (ranking highest events).toFinset = keptPlaces events :=
  Finset.ext fun _ => List.mem_toFinset.trans mem_ranking

theorem length_ranking (highest : Bool) (events : List Event) :
    (ranking highest events).length = (keptPlaces events).card := by
  rw [← toFinset_ranking highest, List.toFinset_card_of_nodup (nodup_ranking highest events)]

/-- What is not selected is what the ranking goes on with. -/
theorem sdiff_take_ranking (highest : Bool) (events : List Event) (number : Nat) :
    keptPlaces events \ ((ranking highest events).take number).toFinset =
      ((ranking highest events).drop number).toFinset := by
  have hnodup := nodup_ranking highest events
  rw [← List.take_append_drop number (ranking highest events), List.nodup_append] at hnodup
  have hall : keptPlaces events = ((ranking highest events).take number).toFinset ∪
      ((ranking highest events).drop number).toFinset := by
    rw [← List.toFinset_append, List.take_append_drop, toFinset_ranking]
  rw [hall, Finset.union_sdiff_left]
  refine Finset.sdiff_eq_self_of_disjoint (Finset.disjoint_left.mpr ?_)
  intro i hdrop htake
  exact hnodup.2.2 i (List.mem_toFinset.mp htake) i (List.mem_toFinset.mp hdrop) rfl

/-! ## The best dice -/

/-- None of them is outranked by a die that is not among them. -/
structure Best (highest : Bool) (events : List Event) (number : Nat) (chosen : Finset Nat) :
    Prop where
  subset : chosen ⊆ keptPlaces events
  card : chosen.card = number
  outranks : ∀ i ∈ chosen, ∀ j ∈ keptPlaces events, j ∉ chosen → Outranks highest events i j

theorem Best.unique {chosen other : Finset Nat} (h : Best highest events number chosen)
    (h' : Best highest events number other) : other = chosen := by
  refine Finset.eq_of_subset_of_card_le ?_ (Nat.le_of_eq (h.card.trans h'.card.symm))
  intro j hj
  by_contra hout
  -- there would be a die on each side that outranks the other one
  have hcard : (other \ chosen).card = (chosen \ other).card :=
    Finset.card_sdiff_comm (h'.card.trans h.card.symm)
  have hpos : 0 < (other \ chosen).card :=
    Finset.card_pos.mpr ⟨j, Finset.mem_sdiff.mpr ⟨hj, hout⟩⟩
  obtain ⟨i, hi⟩ := Finset.card_pos.mp (hcard ▸ hpos)
  obtain ⟨hi, hi'⟩ := Finset.mem_sdiff.mp hi
  have hforth := h.outranks i hi j (h'.subset hj) hout
  exact hforth.asymm (h'.outranks j hj i (h.subset hi) hi')

theorem best_take (highest : Bool) (events : List Event) (h : number ≤ (keptPlaces events).card) :
    Best highest events number ((ranking highest events).take number).toFinset := by
  have hnodup := nodup_ranking highest events
  refine ⟨?_, ?_, ?_⟩
  · intro i hi
    exact mem_ranking.mp (List.mem_of_mem_take (List.mem_toFinset.mp hi))
  · rw [List.toFinset_card_of_nodup (hnodup.sublist (List.take_sublist _ _)), List.length_take,
      length_ranking, Nat.min_eq_left h]
  · intro i hi j hj hout
    have hsplit := pairwise_ranking highest events
    rw [← List.take_append_drop number (ranking highest events), List.pairwise_append] at hsplit
    refine hsplit.2.2 i (List.mem_toFinset.mp hi) j ?_
    have hmem : j ∈ ranking highest events := mem_ranking.mpr hj
    rw [← List.take_append_drop number (ranking highest events), List.mem_append] at hmem
    exact hmem.resolve_left fun htake => hout (List.mem_toFinset.mpr htake)

/-! ## Keeping and dropping -/

/-- Nothing but the status of the events at the given places is changed. -/
def Drops (dropped : Finset Nat) (before after : List Event) : Prop :=
  ∀ i : Nat, after[i]? =
    before[i]?.map fun e => if i ∈ dropped then { e with status := .dropped } else e

theorem drops_dropPlaces (dropped : List Nat) (events : List Event) :
    Drops dropped.toFinset events (dropPlaces dropped events) := by
  intro i
  rw [getElem?_dropPlaces]
  simp only [List.mem_toFinset, List.contains_iff_mem]
  rfl

theorem Drops.keptPlaces {dropped : Finset Nat} (h : Drops dropped before after) :
    keptPlaces after = keptPlaces before \ dropped := by
  ext i
  rw [Finset.mem_sdiff, mem_keptPlaces, mem_keptPlaces, h i]
  by_cases hi : i ∈ dropped
  · simp [hi, Event.isKeptDie, Event.isKept]
  · simp [hi]

/-- A count selects at most all dice, and one below zero all but that many. -/
theorem selectedCount_eq (count : Int) (total : Nat) :
    (selectedCount count total : Int) =
      if 0 ≤ count then min count total else max (total + count) 0 := by
  unfold selectedCount
  split <;> omega

theorem selectedCount_le (count : Int) (total : Nat) : selectedCount count total ≤ total := by
  unfold selectedCount
  split <;> omega

/-- A count selects a number of dice, and there is one way to select that many so that each goes
before all others. Keeping drops the others, dropping drops them; no die is drawn for it, and
nothing else is changed. -/
theorem keep_drop_best (limits : Limits) (pool : List Bool) (count : Int) (highest : Bool)
    (events : List Event) :
    ∃ (number : Nat) (chosen : Finset Nat) (kept rest : List Event),
      (number : Int) = (if 0 ≤ count then min count (keptPlaces events).card
        else max ((keptPlaces events).card + count) 0) ∧
      Best highest events number chosen ∧
      (∀ other, Best highest events number other → other = chosen) ∧
      applyModifier limits (.keep count highest) pool events = .done kept ∧
      Drops (keptPlaces events \ chosen) events kept ∧ keptPlaces kept = chosen ∧
      applyModifier limits (.drop count highest) pool events = .done rest ∧
      Drops chosen events rest ∧ keptPlaces rest = keptPlaces events \ chosen := by
  have hlen := length_ranking highest events
  let number := selectedCount count (keptPlaces events).card
  let chosen := ((ranking highest events).take number).toFinset
  have hbest : Best highest events number chosen :=
    best_take highest events (selectedCount_le count (keptPlaces events).card)
  have hkept : Drops (keptPlaces events \ chosen) events (keep count highest events) := by
    rw [keep, hlen, sdiff_take_ranking]
    exact drops_dropPlaces _ _
  have hrest : Drops chosen events (drop count highest events) := by
    rw [drop, hlen]
    exact drops_dropPlaces _ _
  refine ⟨number, chosen, _, _, selectedCount_eq _ _, hbest, fun _ hother => hbest.unique hother,
    rfl, hkept, ?_, rfl, hrest, hrest.keptPlaces⟩
  rw [hkept.keptPlaces, Finset.sdiff_sdiff_eq_self hbest.subset]

end Evaluation

end Dice
