import Dice.Proofs.Evaluation.Closing

/-!
# Dice.Proofs.Evaluation.Complement

Keeping dice and dropping dice, as complements of each other.

* `besides`, `perm_keptValues` : what counts and is no die, which no selection touches.
* `keptPlaces_complement`, `sum_shown_complement` : what one of them drops the other leaves.
* `picked_complement` : to keep the best is to drop all but as many of the worst, as far as the
  values are concerned.
* `appliedBefore`, `appliedBehind` : the modifiers before and behind a selection, whatever their
  order in the notation.
* `evaluate_selection` : a pool is selected from where the modifiers before it have left it.
* `keep_drop_complement` : one of them in place of the other.
-/

namespace Dice

namespace Evaluation

open Draws (Returns)

/-! ## What counts -/

/-- What counts and is no die. -/
def besides (events : List Event) : List Event :=
  events.filter fun e => e.isKept && !e.isDie

theorem besides_dropPlaces {dropped : List Nat} {events : List Event}
    (h : ∀ i ∈ dropped, ∃ e, events[i]? = some e ∧ e.isKeptDie = true) :
    besides (dropPlaces dropped events) = besides events := by
  have hsame : ∀ item ∈ events.zipIdx, dropped.contains item.2 = true →
      (item.1.isKept && !item.1.isDie) = false := by
    intro item hitem hdropped
    obtain ⟨e, he, hkept⟩ := h item.2 (List.contains_iff_mem.mp hdropped)
    rw [List.mem_zipIdx_iff_getElem?.mp hitem] at he
    cases he
    simp only [Event.isKeptDie, Bool.and_eq_true] at hkept
    simp [hkept.2]
  conv_rhs => rw [besides, ← List.zipIdx_map_fst 0 events, List.filter_map]
  rw [besides, dropPlaces, List.filter_map]
  have hfilter : events.zipIdx.filter ((fun e => e.isKept && !e.isDie) ∘ fun item =>
      if dropped.contains item.2 then item.1.dropped else item.1) =
      events.zipIdx.filter ((fun e => e.isKept && !e.isDie) ∘ Prod.fst) := by
    refine List.filter_congr ?_
    intro item hitem
    by_cases hdropped : dropped.contains item.2 = true
    · simp only [Function.comp_apply, if_pos hdropped, hsame item hitem hdropped]
      rfl
    · simp only [Function.comp_apply, if_neg hdropped]
  rw [hfilter]
  refine List.map_congr_left ?_
  intro item hitem
  obtain ⟨hmem, hcounts⟩ := List.mem_filter.mp hitem
  by_cases hdropped : dropped.contains item.2 = true
  · rw [Function.comp_apply, hsame item hmem hdropped] at hcounts
    cases hcounts
  · rw [if_neg hdropped]

theorem besides_keep (count : Int) (highest : Bool) (events : List Event) :
    besides (keep count highest events) = besides events :=
  besides_dropPlaces fun _ hi => isKeptDie_of_mem_ranking (List.mem_of_mem_drop hi)

theorem besides_drop (count : Int) (highest : Bool) (events : List Event) :
    besides (drop count highest events) = besides events :=
  besides_dropPlaces fun _ hi => isKeptDie_of_mem_ranking (List.mem_of_mem_take hi)

theorem perm_keptValues (events : List Event) :
    ((events.filter Event.isKept).map Event.value).Perm
      (shown events ++ (besides events).map Event.value) := by
  have h := List.filter_append_perm Event.isDie (events.filter Event.isKept)
  rw [List.filter_filter, List.filter_filter] at h
  have hdice : events.filter (fun e => e.isDie && e.isKept) = events.filter Event.isKeptDie :=
    List.filter_congr fun e _ => Bool.and_comm _ _
  have hrest : events.filter (fun e => !e.isDie && e.isKept) = besides events :=
    List.filter_congr fun e _ => Bool.and_comm _ _
  rw [hdice, hrest] at h
  rw [shown, ← List.map_append]
  exact (h.map Event.value).symm

theorem keptSum_eq_add_besides (events : List Event) :
    keptSum events = (shown events).sum + Event.total (besides events) := by
  rw [keptSum, total_eq_sum, total_eq_sum, (perm_keptValues events).sum_eq, List.sum_append]

/-! ## The places that count -/

theorem keptPlaces_keep (count : Int) (highest : Bool) (events : List Event) :
    keptPlaces (keep count highest events) = ((ranking highest events).take
      (selectedCount count (ranking highest events).length)).toFinset := by
  rw [← toFinset_ranking highest, ranking_keep]

theorem keptPlaces_drop (count : Int) (highest : Bool) (events : List Event) :
    keptPlaces (drop count highest events) = ((ranking highest events).drop
      (selectedCount count (ranking highest events).length)).toFinset := by
  rw [← toFinset_ranking highest, ranking_drop]

theorem keptPlaces_complement (count : Int) (highest : Bool) (events : List Event) :
    Disjoint (keptPlaces (keep count highest events)) (keptPlaces (drop count highest events)) ∧
      keptPlaces (keep count highest events) ∪ keptPlaces (drop count highest events) =
        keptPlaces events := by
  rw [keptPlaces_keep, keptPlaces_drop, ← List.toFinset_append, List.take_append_drop,
    toFinset_ranking]
  refine ⟨?_, rfl⟩
  rw [List.disjoint_toFinset_iff_disjoint]
  exact List.disjoint_take_drop (nodup_ranking highest events) (Nat.le_refl _)

theorem sum_shown_complement (count : Int) (highest : Bool) (events : List Event) :
    (shown (keep count highest events)).sum + (shown (drop count highest events)).sum =
      (shown events).sum := by
  rw [(shown_keep count highest events).sum_eq, (shown_drop count highest events).sum_eq,
    ← List.sum_append, List.take_append_drop, (perm_rank highest _).sum_eq]

/-- The best of them are all but the worst. -/
theorem picked_complement {k : Nat} {values : List Int} (h : k ≤ values.length) (highest : Bool) :
    ((Modifier.keep k highest).picked values).Perm
      ((Modifier.drop (values.length - k : Nat) (!highest)).picked values) := by
  have hlen : (rank id highest values).length = values.length := (perm_rank highest values).length_eq
  rw [Modifier.picked, Modifier.picked, selectedCount_natCast, selectedCount_natCast,
    Nat.min_eq_left h, Nat.min_eq_left (Nat.sub_le _ _), rank_not, List.drop_reverse, hlen,
    Nat.sub_sub_self h]
  exact (List.reverse_perm _).symm

theorem shown_keep_perm_drop {k : Nat} {events : List Event} (h : k ≤ (shown events).length)
    (highest : Bool) :
    (shown (keep k highest events)).Perm
      (shown (drop ((shown events).length - k : Nat) (!highest) events)) :=
  (shown_keep k highest events).trans ((picked_complement h highest).trans
    (shown_drop ((shown events).length - k : Nat) (!highest) events).symm)

theorem keptValues_perm {kept rest : List Event} (hshown : (shown kept).Perm (shown rest))
    (hbesides : besides kept = besides rest) :
    ((kept.filter Event.isKept).map Event.value).Perm
      ((rest.filter Event.isKept).map Event.value) := by
  have hkept := perm_keptValues kept
  rw [hbesides] at hkept
  exact hkept.trans ((hshown.append_right _).trans (perm_keptValues rest).symm)

/-! ## A selection among other modifiers -/

/-- The modifiers that are applied before a selection between others: those of earlier phases, and
the selections in front of it. -/
def appliedBefore (front back : List Modifier) : List Modifier :=
  front.filter (·.phase.number ≤ Phase.selection.number) ++
    back.filter (·.phase.number < Phase.selection.number)

/-- The modifiers that are applied after it. -/
def appliedBehind (front back : List Modifier) : List Modifier :=
  back.filter (·.phase = .selection) ++ (front ++ back).filter (·.phase = .finalization)

theorem filter_phase_filter (c : Phase → Bool) (p : Phase) (modifiers : List Modifier) :
    (modifiers.filter fun m => c m.phase).filter (·.phase = p) =
      if c p then modifiers.filter (·.phase = p) else [] := by
  rw [List.filter_filter]
  by_cases hp : c p = true
  · rw [if_pos hp]
    refine List.filter_congr ?_
    intro m _
    by_cases hm : m.phase = p
    · simp [hm, hp]
    · simp [hm]
  · rw [if_neg hp, List.filter_eq_nil_iff]
    intro m _
    by_cases hm : m.phase = p
    · simp [hm, hp]
    · simp [hm]

variable {m : Modifier} {front back : List Modifier}

theorem phased_selection_between (hm : m.phase = .selection) :
    phased (front ++ m :: back) =
      phased (appliedBefore front back) ++ m :: appliedBehind front back := by
  have hfront (p : Phase) := filter_phase_filter (·.number ≤ Phase.selection.number) p front
  have hback (p : Phase) := filter_phase_filter (·.number < Phase.selection.number) p back
  simp only [phased_eq, appliedBefore, appliedBehind, List.filter_append, List.filter_cons, hfront,
    hback, hm]
  simp [Phase.number]

theorem phase_of_mem_appliedBefore {m' : Modifier}
    (h : m' ∈ phased (appliedBefore front back)) : m'.phase ≠ .finalization := by
  intro hphase
  rcases List.mem_append.mp (mem_phased h) with h | h
  · simp [hphase, Phase.number] at h
  · simp [hphase, Phase.number] at h

/-- A pool is selected from where the modifiers before have left it. -/
theorem evaluate_selection (hm : m.phase = .selection) (limits : Limits) (count : Int) (die : Node) :
    (Node.pool count die ((front ++ m :: back).map .modifier)).evaluate limits =
      ((Node.pool count die ((appliedBefore front back).map .modifier)).evaluate limits).bind
        fun e => (applyAll limits (m :: appliedBehind front back) none e.events).bind
          fun events => .done ⟨keptSum events, events⟩ := by
  have hbefore : ∀ m' ∈ phased (appliedBefore front back), m'.phase ≠ .finalization :=
    fun _ => phase_of_mem_appliedBefore
  rw [Node.evaluate, Node.evaluate, evaluatePool_map, evaluatePool_map,
    phased_selection_between hm]
  cases poolDie? die with
  | none => rfl
  | some d => simp only [applyAll_append limits hbefore, Draws.bind_assoc, Draws.done_bind]

theorem unmarked_appliedBefore {limits : Limits} {count : Int} {die : Node} {answers : List Int}
    {e : Evaluation}
    (h : Returns ((Node.pool count die ((appliedBefore front back).map .modifier)).evaluate limits)
      answers e) : ∀ event ∈ e.events, event.Unmarked := by
  rw [Node.evaluate] at h
  obtain ⟨d, ms, values, _, hd, hms, _, _, happly, _⟩ := returns_evaluatePool h
  rw [modifiersOf_map] at hms
  cases hms
  refine unmarked_applyAll (fun _ => phase_of_mem_appliedBefore) happly ?_
  intro event hevent
  obtain ⟨value, _, rfl⟩ := List.mem_map.mp hevent
  exact ⟨isDie_drawn (isSome_range_of_poolDie? hd) _ _, rfl⟩

/-! ## One selection in place of another -/

variable {m' : Modifier} {events : List Event}

/-- All that follows looks only at the values that a selection leaves. -/
theorem keptSum_selected_congr (limits : Limits) (hs : ∀ e ∈ events, e.Unmarked)
    (hm : m.phase = .selection) (hm' : m'.phase = .selection)
    (hpicked : (m.picked (shown events)).Perm (m'.picked (shown events))) (front back) :
    ((applyAll limits (m :: appliedBehind front back) none events).bind
        fun after => .done (keptSum after)) =
      (applyAll limits (m' :: appliedBehind front back) none events).bind
        fun after => .done (keptSum after) := by
  have hselections : ∀ m ∈ back.filter (·.phase = .selection), m.phase = .selection :=
    fun m hm => of_decide_eq_true (List.mem_filter.mp hm).2
  have hlast : ∀ m ∈ (front ++ back).filter (·.phase = .finalization), m.phase = .finalization :=
    fun m hm => of_decide_eq_true (List.mem_filter.mp hm).2
  have hleft {m : Modifier} (hm : m.phase = .selection) : ∃ after,
      applyAll limits (m :: appliedBehind front back) none events =
        applyAll limits ((front ++ back).filter (·.phase = .finalization)) none after ∧
      (∀ e ∈ after, e.Unmarked) ∧
      (shown after).Perm ((back.filter (·.phase = .selection)).foldl
        (fun values m => m.picked values) (m.picked (shown events))) := by
    have hall : ∀ m' ∈ m :: back.filter (·.phase = .selection), m'.phase = .selection :=
      List.forall_mem_cons.mpr ⟨hm, hselections⟩
    have hearly : ∀ m' ∈ m :: back.filter (·.phase = .selection), m'.phase ≠ .finalization := by
      intro m' hm'
      rw [hall m' hm']
      decide
    obtain ⟨after, hafter, hshown⟩ := applyAll_selection limits hall none events
    have hreturns : Returns (applyAll limits (m :: back.filter (·.phase = .selection)) none events)
        [] after := by
      rw [hafter]
      exact .done
    refine ⟨after, ?_, unmarked_applyAll hearly hreturns hs, hshown⟩
    rw [appliedBehind, ← List.cons_append, applyAll_append limits hearly, hafter, Draws.done_bind]
  obtain ⟨after, heq, hunmarked, hshown⟩ := hleft hm
  obtain ⟨after', heq', hunmarked', hshown'⟩ := hleft hm'
  rw [heq, heq']
  exact keptSum_applyAll_congr limits hunmarked hunmarked'
    (hshown.trans ((picked_foldl_perm _ hpicked).trans hshown'.symm)) hlast

variable {σ : Type} [RandomSource σ]

theorem run_selected_congr {limits : Limits} {number : Int} {die : Node} {s : σ} {e : Evaluation}
    (hbase : (((Node.pool number die ((appliedBefore front back).map .modifier)).evaluate
      limits).run s).result = .ok e)
    (hm : m.phase = .selection) (hm' : m'.phase = .selection)
    (hpicked : (m.picked (shown e.events)).Perm (m'.picked (shown e.events))) :
    (((Node.pool number die ((front ++ m :: back).map .modifier)).evaluate limits).run s).map
        Evaluation.value =
      (((Node.pool number die ((front ++ m' :: back).map .modifier)).evaluate limits).run s).map
        Evaluation.value := by
  have hs := unmarked_appliedBefore (Draws.returns_answersTo hbase).1
  have hvalue {m : Modifier} (hm : m.phase = .selection) :
      (((Node.pool number die ((front ++ m :: back).map .modifier)).evaluate limits).run s).map
          Evaluation.value =
        (((Node.pool number die ((appliedBefore front back).map .modifier)).evaluate limits).run
          s).andThen fun e s =>
            ((applyAll limits (m :: appliedBehind front back) none e.events).bind
              fun after => .done (keptSum after)).run s := by
    rw [evaluate_selection hm, ← Draws.run_map, ← Draws.run_bind]
    simp only [Draws.bind_assoc, Draws.done_bind]
  rw [hvalue hm, hvalue hm', Run.andThen_ok hbase, Run.andThen_ok hbase,
    keptSum_selected_congr limits hs hm hm' hpicked]

/-- Of the dice that count, keeping leaves those that dropping the same number in the same direction
does not, so their sums add up to the sum before; what counts and is no die counts in both. Keeping
some of them and dropping all but as many from the other end may leave other dice, but the same
values. So to put one in place of the other, anywhere among the modifiers of a roll, changes neither
its value nor what is asked of the source, if the number is right for the dice that count when its
turn comes. -/
theorem keep_drop_complement (limits : Limits) (highest : Bool) {σ : Type} [RandomSource σ] (s : σ) :
    (∀ (count : Int) (pool : List Bool) (events : List Event), ∃ kept rest,
      applyModifier limits (.keep count highest) pool events = .done kept ∧
      applyModifier limits (.drop count highest) pool events = .done rest ∧
      Disjoint (keptPlaces kept) (keptPlaces rest) ∧
      keptPlaces kept ∪ keptPlaces rest = keptPlaces events ∧
      (shown kept).sum + (shown rest).sum = (shown events).sum ∧
      keptSum kept + keptSum rest = keptSum events + Event.total (besides events)) ∧
    (∀ (k n : Nat) (pool : List Bool) (events : List Event),
      events.countP Event.isKeptDie = n → k ≤ n → ∃ kept rest,
        applyModifier limits (.keep k highest) pool events = .done kept ∧
        applyModifier limits (.drop (n - k : Nat) (!highest)) pool events = .done rest ∧
        (shown kept).Perm (shown rest) ∧
        ((kept.filter Event.isKept).map Event.value).Perm
          ((rest.filter Event.isKept).map Event.value)) ∧
    ∀ (number : Int) (die : Node) (front back : List Modifier) (k n : Nat) (e : Evaluation),
      (((Node.pool number die ((appliedBefore front back).map .modifier)).evaluate limits).run
        s).result = .ok e →
      e.events.countP Event.isKeptDie = n → k ≤ n →
        (((Node.pool number die ((front ++ .keep k highest :: back).map .modifier)).evaluate
            limits).run s).map Evaluation.value =
          (((Node.pool number die ((front ++ .drop (n - k : Nat) (!highest) :: back).map
            .modifier)).evaluate limits).run s).map Evaluation.value := by
  refine ⟨?_, ?_, ?_⟩
  · intro count pool events
    obtain ⟨hdisjoint, hunion⟩ := keptPlaces_complement count highest events
    have hsum := sum_shown_complement count highest events
    refine ⟨_, _, rfl, rfl, hdisjoint, hunion, hsum, ?_⟩
    rw [keptSum_eq_add_besides, keptSum_eq_add_besides, keptSum_eq_add_besides, besides_keep,
      besides_drop]
    omega
  · intro k n pool events hn hk
    rw [← hn, ← length_shown_eq_countP] at hk
    have hshown := shown_keep_perm_drop hk highest
    rw [length_shown_eq_countP, hn] at hshown
    refine ⟨_, _, rfl, rfl, hshown, keptValues_perm hshown ?_⟩
    rw [besides_keep, besides_drop]
  · intro number die front back k n e hbase hn hk
    rw [← hn, ← length_shown_eq_countP] at hk
    have hpicked := picked_complement hk highest
    rw [length_shown_eq_countP, hn] at hpicked
    exact run_selected_congr hbase rfl rfl hpicked

/-- `4d6` with four threes, the best two kept or the worst two dropped: the first two are left, or the
last two. Either way they are counted, and one is added. -/
theorem keep_drop_complement_ties :
    let three : Event := .drawn (.fresh (.sided 6)) .initial 3
    let events := [three, three, three, three]
    let back : List Modifier :=
      [.onMatch .success ⟨.known .equal, 3⟩, .adjust (.known .plus) 1]
    let s := Source.ofValues [3, 3, 3, 3]
    let roll (m : Modifier) := ((Node.pool 4 (.die (.fresh (.sided 6)))
      (([] ++ m :: back).map .modifier)).evaluate .standard).run s
    events.countP Event.isKeptDie = 4 ∧ 2 ≤ 4 ∧
      keep 2 true events = [three, three, three.dropped, three.dropped] ∧
      drop 2 false events = [three.dropped, three.dropped, three, three] ∧
      (roll (.keep 2 true)).result.map Evaluation.value = .ok 3 ∧
      (roll (.keep 2 true)).map Evaluation.value = (roll (.drop 2 false)).map Evaluation.value := by
  intro three events back s roll
  have hroll := (keep_drop_complement .standard true s).2.2 4 (.die (.fresh (.sided 6))) [] back 2 4
    ⟨12, events⟩ rfl rfl (by decide)
  -- equal dice are in order already
  have hranked (highest : Bool) : ranking highest events = [0, 1, 2, 3] := by
    cases highest <;> exact congrArg (List.map Prod.snd) (List.mergeSort_of_pairwise (by decide))
  have hkeep : keep 2 true events = [three, three, three.dropped, three.dropped] := by
    rw [keep, hranked]
    rfl
  have hdrop : drop 2 false events = [three.dropped, three.dropped, three, three] := by
    rw [drop, hranked]
    rfl
  have hvalue : (roll (.keep 2 true)).result.map Evaluation.value = .ok 3 := by
    have hlast : roll (.keep 2 true) =
        ((applyAll .standard back none (keep 2 true events)).bind fun after =>
          .done ⟨keptSum after, after⟩).runFrom (.script [3, 3, 3, 3] 4)
            (List.replicate 4 ⟨1, 7⟩) [] := rfl
    rw [hlast, hkeep]
    rfl
  exact ⟨rfl, by decide, hkeep, hdrop, hvalue, hroll⟩

end Evaluation

end Dice
