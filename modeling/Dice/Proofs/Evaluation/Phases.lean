import Mathlib.Data.List.Pairwise
import Dice.Proofs.Evaluation.Handling

/-!
# Dice.Proofs.Evaluation.Phases

Modifiers in their phases, and what each phase can do.

* `phased_append`, `phased_generation` : lists that are in order already stay so.
* `pairwise_phased` : no modifier stands behind one of a later phase.
* `poolAt` : the dice that are counted, as the modifiers before have fixed them.
* `applyAll_append` : modifiers one after another, as long as the first ones count nothing.
* `evaluatePool_map` : what is left of the evaluation of a pool if all its modifiers are modifiers.
* `forall_generation` : what the first phase cannot change.
* `applyModifier_done`, `applyAll_done` : known modifiers of all phases but the first draw nothing
  and do not fail.
-/

namespace Dice

theorem Modifier.Known.phase_ne_none {m : Modifier} (h : m.Known) : m.phase ≠ .none := by
  cases h with
  | keep | drop | adjust => exact nofun
  | @onMatch t _ ht _ =>
    cases t with
    | general => exact absurd rfl ht
    | _ => exact nofun

/-! ## The order of phases -/

theorem phased_eq (modifiers : List Modifier) :
    phased modifiers = modifiers.filter (·.phase = .none) ++
      (modifiers.filter (·.phase = .generation) ++
        (modifiers.filter (·.phase = .selection) ++
          modifiers.filter (·.phase = .finalization))) := by
  simp [phased, Phase.all]

theorem phased_eq_of_known {modifiers : List Modifier} (hk : ∀ m ∈ modifiers, m.Known) :
    phased modifiers = modifiers.filter (·.phase = .generation) ++
      (modifiers.filter (·.phase = .selection) ++ modifiers.filter (·.phase = .finalization)) := by
  have hnone : modifiers.filter (·.phase = .none) = [] := by
    rw [List.filter_eq_nil_iff]
    intro m hm
    simpa using (hk m hm).phase_ne_none
  rw [phased_eq, hnone, List.nil_append]

theorem filter_phase_self {p : Phase} {modifiers : List Modifier}
    (h : ∀ m ∈ modifiers, m.phase = p) : modifiers.filter (·.phase = p) = modifiers := by
  rw [List.filter_eq_self]
  simpa using h

theorem filter_phase_other {p q : Phase} {modifiers : List Modifier}
    (h : ∀ m ∈ modifiers, m.phase = p) (hpq : p ≠ q) : modifiers.filter (·.phase = q) = [] := by
  rw [List.filter_eq_nil_iff]
  intro m hm
  simpa [h m hm] using hpq

/-- Modifiers of the last phase may as well be appended afterwards. -/
theorem phased_append {modifiers last : List Modifier}
    (h : ∀ m ∈ last, m.phase = .finalization) :
    phased (modifiers ++ last) = phased modifiers ++ last := by
  have hnone := filter_phase_other h (q := .none) (by decide)
  have hgeneration := filter_phase_other h (q := .generation) (by decide)
  have hselection := filter_phase_other h (q := .selection) (by decide)
  simp only [phased_eq, List.filter_append, filter_phase_self h, hnone, hgeneration, hselection,
    List.append_assoc, List.nil_append]

theorem phased_generation {modifiers : List Modifier} (h : ∀ m ∈ modifiers, m.phase = .generation) :
    phased modifiers = modifiers := by
  have hnone := filter_phase_other h (q := .none) (by decide)
  have hselection := filter_phase_other h (q := .selection) (by decide)
  have hfinalization := filter_phase_other h (q := .finalization) (by decide)
  rw [phased_eq, filter_phase_self h, hnone, hselection, hfinalization]
  simp

theorem phased_filter (modifiers : List Modifier) :
    phased (modifiers.filter (·.phase = .generation)) =
      modifiers.filter (·.phase = .generation) :=
  phased_generation (by simp)

/-- The modifiers of the first phase and those of the last one, as they stand, are in order. -/
theorem phased_generation_append {first last : List Modifier}
    (hfirst : ∀ m ∈ first, m.phase = .generation) (hlast : ∀ m ∈ last, m.phase = .finalization) :
    phased (first ++ last) = first ++ last := by
  rw [phased_append hlast, phased_generation hfirst]

theorem mem_phased {modifiers : List Modifier} {m : Modifier} (h : m ∈ phased modifiers) :
    m ∈ modifiers := by
  obtain ⟨_, _, hm⟩ := List.mem_flatMap.mp h
  exact (List.mem_filter.mp hm).1

theorem pairwise_phased (modifiers : List Modifier) :
    (phased modifiers).Pairwise fun a b => a.phase.number ≤ b.phase.number := by
  rw [phased, List.pairwise_flatMap]
  constructor
  · intro p _
    refine List.pairwise_of_forall_mem_list ?_
    intro a ha b hb
    simp only [List.mem_filter, decide_eq_true_eq] at ha hb
    exact Nat.le_of_eq (by rw [ha.2, hb.2])
  · have hphases : Phase.all.Pairwise fun p q => p.number ≤ q.number := by decide
    refine hphases.imp ?_
    intro p q hpq a ha b hb
    simp only [List.mem_filter, decide_eq_true_eq] at ha hb
    rw [ha.2, hb.2]
    exact hpq

/-- In order of phases, what stands before a modifier of the first phase is of that phase too. -/
theorem generation_of_pairwise {m m' : Modifier} {left : List Modifier}
    (h : (m :: left).Pairwise fun a b => a.phase.number ≤ b.phase.number)
    (hm : m.phase ≠ .none) (hm' : m' ∈ left) (hphase : m'.phase = .generation) :
    m.phase = .generation := by
  have hle := (List.pairwise_cons.mp h).1 m' hm'
  rw [hphase] at hle
  cases hp : m.phase with
  | none => exact absurd hp hm
  | generation => rfl
  | selection => rw [hp] at hle; exact absurd hle (by decide)
  | finalization => rw [hp] at hle; exact absurd hle (by decide)

namespace Evaluation

/-! ## One modifier after another -/

/-- The dice that are counted when a modifier is applied. -/
def poolAt (m : Modifier) (pool : Option (List Bool)) (events : List Event) : Option (List Bool) :=
  if m.phase = .finalization then some (pool.getD (poolOf events)) else pool

/-- They are fixed by the first modifier of the last phase, and never again. -/
theorem poolAt_eq (m : Modifier) (pool : Option (List Bool)) (events : List Event) :
    poolAt m pool events = pool ∨
      pool = none ∧ m.phase = .finalization ∧ poolAt m pool events = some (poolOf events) := by
  unfold poolAt
  split
  · rename_i hm
    cases pool with
    | none => exact .inr ⟨rfl, hm, rfl⟩
    | some pool => exact .inl rfl
  · exact .inl rfl

theorem applyAll_cons (limits : Limits) (m : Modifier) (modifiers : List Modifier)
    (pool : Option (List Bool)) (events : List Event) :
    applyAll limits (m :: modifiers) pool events =
      (applyModifier limits m ((poolAt m pool events).getD []) events).bind
        (applyAll limits modifiers (poolAt m pool events)) :=
  rfl


theorem applyAll_append (limits : Limits) {first : List Modifier}
    (h : ∀ m ∈ first, m.phase ≠ .finalization) (rest : List Modifier) (pool : Option (List Bool))
    (events : List Event) :
    applyAll limits (first ++ rest) pool events =
      (applyAll limits first pool events).bind (applyAll limits rest pool) := by
  induction first generalizing events with
  | nil => rfl
  | cons m first ih =>
    obtain ⟨hm, hfirst⟩ := List.forall_mem_cons.mp h
    have hrest : applyAll limits (first ++ rest) pool =
        fun events => (applyAll limits first pool events).bind (applyAll limits rest pool) :=
      funext (ih hfirst)
    simp only [List.cons_append, applyAll, if_neg hm, hrest, Draws.bind_assoc]

theorem modifiersOf_map (modifiers : List Modifier) :
    modifiersOf (modifiers.map .modifier) = .ok modifiers := by
  induction modifiers with
  | nil => rfl
  | cons m modifiers ih => rw [List.map_cons, modifiersOf, ih]; rfl

theorem eq_map_of_modifiersOf {nodes : List Node} {modifiers : List Modifier}
    (h : modifiersOf nodes = .ok modifiers) : nodes = modifiers.map .modifier := by
  induction nodes generalizing modifiers with
  | nil => cases h; rfl
  | cons node nodes ih =>
    cases node with
    | modifier m =>
      rw [modifiersOf] at h
      cases hrest : modifiersOf nodes with
      | error e => rw [hrest] at h; cases h
      | ok rest =>
        rw [hrest] at h
        cases h
        rw [ih hrest, List.map_cons]
    | _ => cases h

theorem mem_of_modifiersOf {nodes : List Node} {modifiers : List Modifier} {m : Modifier}
    (h : modifiersOf nodes = .ok modifiers) : m ∈ modifiers ↔ .modifier m ∈ nodes := by
  rw [eq_map_of_modifiersOf h]
  simp

/-- Where all modifiers are modifiers, they are applied in the order of their phases. -/
theorem evaluatePool_map (limits : Limits) (count : Int) (die : Node) (modifiers : List Modifier) :
    evaluatePool limits count die (modifiers.map .modifier) =
      match poolDie? die with
      | none => .fail (.unknownDie die)
      | some d => (drawPool d count.toNat []).bind fun events =>
          (applyAll limits (phased modifiers) none events).bind fun events =>
            .done ⟨keptSum events, events⟩ := by
  rw [evaluatePool, modifiersOf_map]
  rfl

/-! ## The first phase -/

/-- What holds of dice that come in, and of all events at first, holds of all of them after the first
phase, if it does not matter whether they are discarded. -/
theorem forall_generation {P : Event → Prop} (hdiscard : ∀ e, P e → P e.discard)
    (hincoming : ∀ x : Event, x.Incoming → P x) {limits : Limits} {modifiers : List Modifier}
    (hm : ∀ m ∈ modifiers, m.phase = .generation) {pool : Option (List Bool)}
    {before after : List Event} {answers : List Int}
    (h : Draws.Returns (applyAll limits modifiers pool before) answers after)
    (hb : ∀ e ∈ before, P e) : ∀ e ∈ after, P e := by
  induction modifiers generalizing pool before answers with
  | nil =>
    obtain ⟨_, rfl⟩ := Draws.returns_done_iff.mp h
    exact hb
  | cons m modifiers ih =>
    obtain ⟨hfirst, hrest⟩ := List.forall_mem_cons.mp hm
    obtain ⟨_, next, _, _, hnext, hlast⟩ := Draws.returns_bind_iff.mp h
    refine ih hrest hlast ?_
    obtain ⟨old, new, rfl, hold, hnew⟩ := returns_generation hfirst hnext
    exact List.forall_mem_append.mpr
      ⟨forall_of_spent hdiscard hold hb, fun x hx => hincoming x (hnew x hx)⟩

/-! ## Modifiers without a phase -/

/-- They are of no particular kind. -/
theorem applyModifier_none (limits : Limits) {m : Modifier} (hm : m.phase = .none)
    (pool : List Bool) (events : List Event) :
    applyModifier limits m pool events = .fail (.unknownModifier m) := by
  cases m with
  | onMatch t p =>
    cases t with
    | general => rfl
    | _ => cases hm
  | general => rfl
  | _ => cases hm

theorem not_returns_none {limits : Limits} {m : Modifier} (hm : m.phase = .none) {pool : List Bool}
    {events events' : List Event} {answers : List Int} :
    ¬ Draws.Returns (applyModifier limits m pool events) answers events' := by
  rw [applyModifier_none limits hm]
  exact Draws.not_returns_fail

/-! ## Phases without draws -/

theorem exists_hits {p : Point} (hp : p.Known) (pool : List Bool) (events : List Event) :
    ∃ found, hits p pool events = .ok found := by
  induction pool generalizing events with
  | nil => exact ⟨[], by simp [hits]⟩
  | cons inPool pool ih =>
    cases events with
    | nil => exact ⟨[], rfl⟩
    | cons e events =>
      obtain ⟨found, hfound⟩ := ih events
      obtain ⟨hit, hhit⟩ := hp.holds e.value
      rw [hits, hhit, hfound]
      split
      · exact ⟨hit :: found, rfl⟩
      · exact ⟨false :: found, rfl⟩

theorem exists_count {p : Point} (hp : p.Known) (m : Mark) (pool : List Bool)
    (events : List Event) : ∃ after, count m p pool events = .ok after := by
  obtain ⟨found, hfound⟩ := exists_hits hp pool events
  rw [count, hfound]
  exact ⟨_, rfl⟩

theorem applyModifier_done (limits : Limits) {m : Modifier} (hm : m.phase ≠ .generation)
    (hk : m.Known) (pool : List Bool) (events : List Event) :
    ∃ after, applyModifier limits m pool events = .done after := by
  cases hk with
  | keep | drop | adjust => exact ⟨_, rfl⟩
  | @onMatch t p ht hp =>
    have hcount (mark : Mark) : ∃ after,
        Draws.ofExcept .unknownRelation (count mark p pool events) = .done after := by
      obtain ⟨after, hafter⟩ := exists_count hp mark pool events
      exact ⟨after, by rw [hafter]; rfl⟩
    cases t with
    | success => exact hcount .success
    | failure => exact hcount .failure
    | general => exact absurd rfl ht
    | _ => exact absurd rfl hm

theorem applyAll_done (limits : Limits) {modifiers : List Modifier}
    (h : ∀ m ∈ modifiers, m.phase ≠ .generation ∧ m.Known) (pool : Option (List Bool))
    (events : List Event) : ∃ after, applyAll limits modifiers pool events = .done after := by
  induction modifiers generalizing pool events with
  | nil => exact ⟨events, rfl⟩
  | cons m modifiers ih =>
    obtain ⟨⟨hm, hk⟩, hrest⟩ := List.forall_mem_cons.mp h
    rw [applyAll]
    obtain ⟨mid, hmid⟩ := applyModifier_done limits hm hk _ events
    rw [hmid]
    exact ih hrest _ mid

end Evaluation

end Dice
