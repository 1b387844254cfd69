import Mathlib.Algebra.BigOperators.Group.List.Basic
import Dice.Proofs.Evaluation.Survivors

/-!
# Dice.Proofs.Evaluation.Closing

To the last phase a die that counts is its value.

* `asked` : whether a count comes to ask a die.
* `count_settled_eq` : a count fails only if it asks one and its comparison is unknown.
* `keptSum_applyAll_congr` : pools that show the same values, in whatever order and at whatever
  places, come to the same, or fail in the same way.
-/

namespace Dice

/-- The failure of a comparison does not look at the value. -/
theorem Point.holds_error {p : Point} {err : UnknownRelation} {value : Int}
    (h : p.holds value = .error err) (other : Int) : p.holds other = .error err := by
  obtain ⟨relation, bound⟩ := p
  cases relation with
  | known relation => cases h
  | unknown found =>
    cases h
    rfl

namespace Evaluation

/-- What comes of asking the dice that have no mark yet, apart from the answers. -/
def asked (p : Point) (counts : List Count) (values : List Int) : Except UnknownRelation Unit :=
  if values.any (firstMark counts · = .neutral) then (p.holds 0).map fun _ => () else .ok ()

theorem asked_cons (p : Point) (counts : List Count) (value : Int) (values : List Int) :
    asked p counts (value :: values) =
      if firstMark counts value = .neutral then (p.holds 0).map fun _ => ()
      else asked p counts values := by
  by_cases h : firstMark counts value = .neutral
  · simp [asked, h]
  · simp [asked, h]

theorem asked_perm {p : Point} {counts : List Count} {values values' : List Int}
    (h : values.Perm values') : asked p counts values = asked p counts values' := by
  rw [asked, asked, h.any_eq]

theorem asked_ok {p : Point} {answer : Bool} {value : Int} (h : p.holds value = .ok answer)
    (counts : List Count) (values : List Int) : asked p counts values = .ok () := by
  cases hzero : p.holds 0 with
  | error err =>
    rw [Point.holds_error hzero value] at h
    cases h
  | ok answer =>
    rw [asked, hzero]
    split <;> rfl

variable {selected selected' : List Event}

theorem shown_cons (e : Event) (events : List Event) :
    shown (e :: events) = if e.isKeptDie then e.value :: shown events else shown events := by
  cases hk : e.isKeptDie <;> simp [shown, hk]

theorem hits_settled (hs : ∀ e ∈ selected, e.Unmarked) (p : Point) (counts : List Count)
    (added : List Event) :
    (hits p (poolOf selected) (selected.map (settled counts) ++ added)).map (fun _ => ()) =
      asked p counts (shown selected) := by
  induction selected with
  | nil => rfl
  | cons e selected ih =>
    obtain ⟨he, hrest⟩ := List.forall_mem_cons.mp hs
    have hrest := ih hrest
    have hskip (hit : Bool) :
        ((hits p (poolOf selected) (selected.map (settled counts) ++ added)).map (hit :: ·)).map
          (fun _ => ()) = asked p counts (shown selected) := by
      rw [← hrest]
      cases hits p (poolOf selected) (selected.map (settled counts) ++ added) <;> rfl
    rw [poolOf, List.map_cons, List.map_cons, List.cons_append, hits, settled_mark he, settled_value,
      shown_cons]
    cases hk : e.isKeptDie with
    | false => exact hskip false
    | true =>
      rw [if_pos rfl, if_pos rfl, asked_cons]
      by_cases hmark : firstMark counts e.value = .neutral
      · rw [if_pos hmark, if_pos (by simp [hmark])]
        cases hholds : p.holds e.value with
        | error err =>
          rw [Point.holds_error hholds 0]
          rfl
        | ok hit =>
          have hasked := asked_ok hholds [] [0]
          rw [asked_cons, if_pos (firstMark_nil 0)] at hasked
          rw [hasked, ← asked_ok hholds counts (shown selected)]
          exact hskip hit
      · rw [if_neg hmark, if_neg (by simp [hmark])]
        exact hskip false

/-- A count of dice, from the values that they show. -/
theorem count_settled_eq (hs : ∀ e ∈ selected, e.Unmarked) (counts : List Count) (c : Count)
    (added : List Event) :
    count c.mark c.point (poolOf selected) (selected.map (settled counts) ++ added) =
      (asked c.point counts (shown selected)).map fun _ =>
        selected.map (settled (counts ++ [c])) ++ (added.map collapse ++
          [tally c.mark ((shown selected).countP fun v =>
            firstMark counts v = .neutral && c.point.meets v)]) := by
  rw [← hits_settled hs c.point counts added]
  cases hcount : count c.mark c.point (poolOf selected)
      (selected.map (settled counts) ++ added) with
  | error err =>
    unfold count at hcount
    cases hh : hits c.point (poolOf selected) (selected.map (settled counts) ++ added) with
    | error err' => rw [hh] at hcount; cases hcount; rfl
    | ok found => rw [hh] at hcount; cases hcount
  | ok after =>
    rw [count_settled hs hcount]
    unfold count at hcount
    cases hh : hits c.point (poolOf selected) (selected.map (settled counts) ++ added) with
    | error err' => rw [hh] at hcount; cases hcount
    | ok found => rfl

theorem keptSum_settled (hs : ∀ e ∈ selected, e.Unmarked) (counts : List Count)
    (added : List Event) :
    keptSum (selected.map (settled counts) ++ added) =
      (if counts = [] then (shown selected).sum else 0) + keptSum added := by
  rw [keptSum_append, keptSum, filter_isKept_settled hs]
  by_cases hc : counts = []
  · rw [if_pos hc, if_pos hc, total_eq_sum]
    rfl
  · rw [if_neg hc, if_neg hc]
    rfl

variable {modifiers : List Modifier}

/-- Some dice have been counted in both pools, and the same has been added. -/
theorem keptSum_applyAll_settled (limits : Limits) (hs : ∀ e ∈ selected, e.Unmarked)
    (hs' : ∀ e ∈ selected', e.Unmarked) (hshown : (shown selected).Perm (shown selected'))
    (hm : ∀ m ∈ modifiers, m.phase = .finalization) (counts : List Count) (added : List Event)
    {pool pool' : Option (List Bool)}
    (hpool : pool.getD (poolOf (selected.map (settled counts) ++ added)) = poolOf selected)
    (hpool' : pool'.getD (poolOf (selected'.map (settled counts) ++ added)) = poolOf selected') :
    ((applyAll limits modifiers pool (selected.map (settled counts) ++ added)).bind fun after =>
        .done (keptSum after)) =
      (applyAll limits modifiers pool' (selected'.map (settled counts) ++ added)).bind
        fun after => .done (keptSum after) := by
  induction modifiers generalizing counts added pool pool' with
  | nil =>
    rw [applyAll, applyAll, Draws.done_bind, Draws.done_bind, keptSum_settled hs,
      keptSum_settled hs', hshown.sum_eq]
  | cons m modifiers ih =>
    obtain ⟨hfirst, hrest⟩ := List.forall_mem_cons.mp hm
    have hat : poolAt m pool (selected.map (settled counts) ++ added) = some (poolOf selected) := by
      rw [poolAt, if_pos hfirst, hpool]
    have hat' : poolAt m pool' (selected'.map (settled counts) ++ added) =
        some (poolOf selected') := by
      rw [poolAt, if_pos hfirst, hpool']
    rw [applyAll_cons, applyAll_cons, hat, hat', Draws.bind_assoc, Draws.bind_assoc]
    have hcount (c : Count) :
        ((Draws.ofExcept .unknownRelation (count c.mark c.point (poolOf selected)
            (selected.map (settled counts) ++ added))).bind fun events =>
          (applyAll limits modifiers (some (poolOf selected)) events).bind fun after =>
            .done (keptSum after)) =
          (Draws.ofExcept .unknownRelation (count c.mark c.point (poolOf selected')
            (selected'.map (settled counts) ++ added))).bind fun events =>
          (applyAll limits modifiers (some (poolOf selected')) events).bind fun after =>
            .done (keptSum after) := by
      rw [count_settled_eq hs, count_settled_eq hs', asked_perm hshown, hshown.countP_eq]
      cases asked c.point counts (shown selected') with
      | error err => rfl
      | ok answer => exact ih hrest _ _ rfl rfl
    cases m with
    | onMatch t p =>
      cases t with
      | success => exact hcount ⟨true, p⟩
      | failure => exact hcount ⟨false, p⟩
      | _ => cases hfirst
    | adjust sign value =>
      cases sign with
      | known sign =>
        simp only [applyModifier, Draws.done_bind, adjust, List.append_assoc]
        exact ih hrest _ _ rfl rfl
      | unknown found => rfl
    | _ => cases hfirst

/-- The last phase makes the same sum of pools that show the same values, or fails in the same
way. -/
theorem keptSum_applyAll_congr (limits : Limits) (hs : ∀ e ∈ selected, e.Unmarked)
    (hs' : ∀ e ∈ selected', e.Unmarked) (hshown : (shown selected).Perm (shown selected'))
    (hm : ∀ m ∈ modifiers, m.phase = .finalization) :
    ((applyAll limits modifiers none selected).bind fun after => .done (keptSum after)) =
      (applyAll limits modifiers none selected').bind fun after => .done (keptSum after) := by
  have hstart (events : List Event) : events.map (settled []) ++ [] = events := by
    rw [List.append_nil, funext settled_nil, List.map_id']
  have hpool (events : List Event) :
      (none : Option (List Bool)).getD (poolOf (events.map (settled []) ++ [])) = poolOf events := by
    rw [hstart]
    rfl
  have h := keptSum_applyAll_settled limits hs hs' hshown hm [] [] (hpool selected) (hpool selected')
  rwa [hstart, hstart] at h

end Evaluation

end Dice
