import Dice.Proofs.Evaluation.Finalization
import Dice.Proofs.Evaluation.Selection

/-!
# Dice.Proofs.Evaluation.Survivors

The values that are left when dice are kept and dropped by rank.

* `rank_unique`, `rank_not` : values in order are one list, and the same backwards in the other
  direction.
* `valueAt`, `ranking_values` : the ranking of the dice that count lists their values in order.
* `shown_keep`, `shown_drop` : keeping leaves the first of them, and dropping the others.
* `Modifier.picked` : what a selection leaves of values, in whatever order they are given.
* `applyAll_selection` : so selections one after another leave values that the values at first
  decide.
-/

namespace Dice

namespace Evaluation

/-! ## Values in order -/

theorem precedes_antisymm {highest : Bool} {a b : Int} (hab : precedes highest a b = true)
    (hba : precedes highest b a = true) : a = b := by
  cases highest <;> simp only [precedes, if_true, Bool.false_eq_true, if_false, decide_eq_true_eq]
    at hab hba <;> omega

theorem precedes_not (highest : Bool) (a b : Int) : precedes (!highest) a b = precedes highest b a := by
  cases highest <;> rfl

variable {highest : Bool} {values values' : List Int}

theorem rank_unique (hperm : values'.Perm values)
    (hsorted : values'.Pairwise fun a b => precedes highest a b = true) :
    values' = rank id highest values := by
  refine List.Perm.eq_of_pairwise ?_ hsorted (pairwise_rank id highest values) ?_
  · intro a b _ _ hab hba
    exact precedes_antisymm hab hba
  · exact hperm.trans (List.mergeSort_perm values _).symm

theorem perm_rank (highest : Bool) (values : List Int) : (rank id highest values).Perm values :=
  List.mergeSort_perm values _

theorem rank_congr (highest : Bool) (h : values.Perm values') :
    rank id highest values = rank id highest values' :=
  rank_unique ((perm_rank highest values).trans h) (pairwise_rank id highest values)

theorem rank_not (highest : Bool) (values : List Int) :
    rank id (!highest) values = (rank id highest values).reverse := by
  symm
  refine rank_unique ?_ ?_
  · exact (List.reverse_perm _).trans (perm_rank highest values)
  · rw [List.pairwise_reverse]
    refine (pairwise_rank id highest values).imp ?_
    intro a b h
    rw [precedes_not]
    exact h

/-! ## The values of the dice that count -/

def valueAt (events : List Event) (i : Nat) : Int :=
  (events[i]?.map Event.value).getD 0

variable {events : List Event}

theorem valueAt_dropPlaces (dropped : List Nat) (events : List Event) :
    valueAt (dropPlaces dropped events) = valueAt events := by
  funext i
  rw [valueAt, valueAt, getElem?_dropPlaces, Option.map_map]
  congr 2
  funext e
  simp only [Function.comp_apply]
  split <;> rfl

theorem map_fst_places (condition : Event → Bool) (events : List Event) :
    (places condition events).map (·.1) = events.filter condition := by
  conv_rhs => rw [← List.zipIdx_map_fst 0 events, List.filter_map]
  rfl

theorem perm_ranking_values (highest : Bool) (events : List Event) :
    ((ranking highest events).map (valueAt events)).Perm (shown events) := by
  have hplaces : (places Event.isKeptDie events).map (fun item => valueAt events item.2) =
      shown events := by
    rw [shown, ← map_fst_places, List.map_map]
    refine List.map_congr_left ?_
    intro item hitem
    rw [valueAt, (mem_places.mp hitem).1]
    rfl
  rw [ranking, List.map_map, ← hplaces]
  exact (List.mergeSort_perm _ _).map _

theorem precedes_of_outranks {i j : Nat} (h : Outranks highest events i j) :
    precedes highest (valueAt events i) (valueAt events j) = true := by
  obtain ⟨a, b, ha, hb, h⟩ := h
  rw [valueAt, valueAt, ha, hb]
  cases highest <;> simp only [precedes, Option.map_some, Option.getD_some, if_true,
    Bool.false_eq_true, if_false, decide_eq_true_eq] at h ⊢ <;> omega

theorem ranking_values (highest : Bool) (events : List Event) :
    (ranking highest events).map (valueAt events) = rank id highest (shown events) := by
  refine rank_unique (perm_ranking_values highest events) ?_
  rw [List.pairwise_map]
  exact (pairwise_ranking highest events).imp precedes_of_outranks

theorem length_shown (highest : Bool) (events : List Event) :
    (shown events).length = (ranking highest events).length := by
  rw [← (perm_ranking_values highest events).length_eq, List.length_map]

theorem length_shown_eq_countP (events : List Event) :
    (shown events).length = events.countP Event.isKeptDie := by
  rw [shown, List.length_map, List.countP_eq_length_filter]

theorem shown_keep (count : Int) (highest : Bool) (events : List Event) :
    (shown (keep count highest events)).Perm
      ((rank id highest (shown events)).take (selectedCount count (shown events).length)) := by
  have hvalues : valueAt (keep count highest events) = valueAt events := valueAt_dropPlaces _ _
  have h := perm_ranking_values highest (keep count highest events)
  rw [ranking_keep, hvalues, List.map_take, ranking_values, ← length_shown highest events] at h
  exact h.symm

theorem shown_drop (count : Int) (highest : Bool) (events : List Event) :
    (shown (drop count highest events)).Perm
      ((rank id highest (shown events)).drop (selectedCount count (shown events).length)) := by
  have hvalues : valueAt (drop count highest events) = valueAt events := valueAt_dropPlaces _ _
  have h := perm_ranking_values highest (drop count highest events)
  rw [ranking_drop, hvalues, List.map_drop, ranking_values, ← length_shown highest events] at h
  exact h.symm

end Evaluation

/-! ## Selections one after another -/

open Evaluation

/-- What is left of the values of dice that count. -/
def Modifier.picked (m : Modifier) (values : List Int) : List Int :=
  match m with
  | .keep count highest => (rank id highest values).take (selectedCount count values.length)
  | .drop count highest => (rank id highest values).drop (selectedCount count values.length)
  | _ => values

theorem Modifier.picked_perm (m : Modifier) {values values' : List Int} (h : values.Perm values') :
    (m.picked values).Perm (m.picked values') := by
  cases m with
  | keep count highest => rw [picked, picked, rank_congr highest h, h.length_eq]
  | drop count highest => rw [picked, picked, rank_congr highest h, h.length_eq]
  | _ => exact h

theorem picked_foldl_perm (modifiers : List Modifier) {values values' : List Int}
    (h : values.Perm values') :
    (modifiers.foldl (fun values m => m.picked values) values).Perm
      (modifiers.foldl (fun values m => m.picked values) values') := by
  induction modifiers generalizing values values' with
  | nil => exact h
  | cons m modifiers ih => exact ih (m.picked_perm h)

namespace Evaluation

theorem applyModifier_selection (limits : Limits) {m : Modifier} (hm : m.phase = .selection)
    (pool : List Bool) (events : List Event) :
    ∃ after, applyModifier limits m pool events = .done after ∧
      (shown after).Perm (m.picked (shown events)) := by
  cases m with
  | keep count highest => exact ⟨_, rfl, shown_keep count highest events⟩
  | drop count highest => exact ⟨_, rfl, shown_drop count highest events⟩
  | onMatch t p => cases t <;> cases hm
  | _ => cases hm

theorem applyAll_selection (limits : Limits) {modifiers : List Modifier}
    (hm : ∀ m ∈ modifiers, m.phase = .selection) (pool : Option (List Bool)) (events : List Event) :
    ∃ after, applyAll limits modifiers pool events = .done after ∧
      (shown after).Perm (modifiers.foldl (fun values m => m.picked values) (shown events)) := by
  induction modifiers generalizing pool events with
  | nil => exact ⟨events, rfl, .refl _⟩
  | cons m modifiers ih =>
    obtain ⟨hfirst, hrest⟩ := List.forall_mem_cons.mp hm
    obtain ⟨mid, hmid, hpicked⟩ := applyModifier_selection limits hfirst
      ((poolAt m pool events).getD []) events
    obtain ⟨after, hafter, hlast⟩ := ih hrest (poolAt m pool events) mid
    refine ⟨after, ?_, hlast.trans (picked_foldl_perm modifiers hpicked)⟩
    rw [applyAll_cons, hmid]
    exact hafter

end Evaluation

end Dice
