import Dice.Proofs.Evaluation.Phases
import Dice.Proofs.Evaluation.Ranking

/-!
# Dice.Proofs.Evaluation.Interleaving

How the modifiers of different phases are interleaved does not matter.

* `phased_unique` : only one list is in order of phases and has given modifiers of each phase.
* `phased_eq_mergeSort` : modifiers are applied as a stable sort by phase would put them.
* `run_eq_of_phases_eq` : pools whose modifiers agree in every phase are evaluated alike.
-/

namespace Dice

/-! ## The order of phases as a stable sort -/

/-- A modifier may be applied before another one of its phase or of a later one. -/
def Modifier.notLater (a b : Modifier) : Bool :=
  a.phase.number ≤ b.phase.number

theorem Modifier.notLater_iff {a b : Modifier} :
    a.notLater b = true ↔ a.phase.number ≤ b.phase.number :=
  decide_eq_true_iff

theorem Modifier.notLater_trans (a b c : Modifier) (hab : a.notLater b = true)
    (hbc : b.notLater c = true) : a.notLater c = true := by
  rw [notLater_iff] at hab hbc ⊢
  exact Nat.le_trans hab hbc

theorem Modifier.notLater_total (a b : Modifier) : (a.notLater b || b.notLater a) = true := by
  rw [Bool.or_eq_true, notLater_iff, notLater_iff]
  exact Nat.le_total _ _

theorem phased_cons {m : Modifier} {rest : List Modifier}
    (h : ∀ m' ∈ rest, m.phase.number ≤ m'.phase.number) :
    phased (m :: rest) = m :: phased rest := by
  -- the phases before that of the first modifier are empty
  have hbefore {p : Phase} (hp : p.number < m.phase.number) : rest.filter (·.phase = p) = [] := by
    rw [List.filter_eq_nil_iff]
    intro m' hm'
    have hle := h m' hm'
    simp only [decide_eq_true_eq]
    rintro rfl
    omega
  rw [phased_eq, phased_eq]
  cases hm : m.phase with
  | none => simp [hm]
  | generation =>
    have hnone : rest.filter (·.phase = .none) = [] := hbefore (by rw [hm]; decide)
    simp [hm, hnone]
  | selection =>
    have hnone : rest.filter (·.phase = .none) = [] := hbefore (by rw [hm]; decide)
    have hgeneration : rest.filter (·.phase = .generation) = [] := hbefore (by rw [hm]; decide)
    simp [hm, hnone, hgeneration]
  | finalization =>
    have hnone : rest.filter (·.phase = .none) = [] := hbefore (by rw [hm]; decide)
    have hgeneration : rest.filter (·.phase = .generation) = [] := hbefore (by rw [hm]; decide)
    have hselection : rest.filter (·.phase = .selection) = [] := hbefore (by rw [hm]; decide)
    simp [hm, hnone, hgeneration, hselection]

theorem phased_eq_self {modifiers : List Modifier}
    (h : modifiers.Pairwise fun a b => a.phase.number ≤ b.phase.number) :
    phased modifiers = modifiers := by
  induction modifiers with
  | nil => rfl
  | cons m rest ih =>
    obtain ⟨hm, hrest⟩ := List.pairwise_cons.mp h
    rw [phased_cons hm, ih hrest]

theorem phased_congr {modifiers modifiers' : List Modifier}
    (h : ∀ p : Phase, modifiers.filter (·.phase = p) = modifiers'.filter (·.phase = p)) :
    phased modifiers = phased modifiers' :=
  congrArg (Phase.all.flatMap ·) (funext h)

theorem phased_unique {modifiers order : List Modifier}
    (hsorted : order.Pairwise fun a b => a.phase.number ≤ b.phase.number)
    (h : ∀ p : Phase, order.filter (·.phase = p) = modifiers.filter (·.phase = p)) :
    order = phased modifiers := by
  rw [← phased_congr h, phased_eq_self hsorted]

/-- Modifiers of one phase are in order already, so sorting leaves them as they stand. -/
theorem filter_mergeSort (modifiers : List Modifier) (p : Phase) :
    (modifiers.mergeSort Modifier.notLater).filter (·.phase = p) =
      modifiers.filter (·.phase = p) := by
  refine Evaluation.filter_mergeSort_of_ties Modifier.notLater_trans Modifier.notLater_total ?_
    modifiers
  intro a b ha hb
  rw [Modifier.notLater_iff, of_decide_eq_true ha, of_decide_eq_true hb]

theorem phased_eq_mergeSort (modifiers : List Modifier) :
    phased modifiers = modifiers.mergeSort Modifier.notLater := by
  refine (phased_unique ?_ (filter_mergeSort modifiers)).symm
  have hsorted := List.pairwise_mergeSort Modifier.notLater_trans Modifier.notLater_total modifiers
  exact hsorted.imp Modifier.notLater_iff.mp

namespace Evaluation

/-! ## Pools with the same modifiers in each phase -/

variable {σ : Type} [RandomSource σ]

/-- The modifiers of two pools stand in any order, as long as those of generation, those of
selection and those of finalization are the same and in the same order. Then both pools make the
same requests and give the same warnings, and they come to the same value with the same events, or
fail with the same failure. -/
theorem run_eq_of_phases_eq (limits : Limits) (count : Int) (die : Node)
    {modifiers modifiers' : List Modifier} (hm : ∀ m ∈ modifiers, m.phase ≠ .none)
    (hm' : ∀ m ∈ modifiers', m.phase ≠ .none)
    (hgeneration : modifiers.filter (·.phase = .generation) =
      modifiers'.filter (·.phase = .generation))
    (hselection : modifiers.filter (·.phase = .selection) =
      modifiers'.filter (·.phase = .selection))
    (hfinalization : modifiers.filter (·.phase = .finalization) =
      modifiers'.filter (·.phase = .finalization)) (s : σ) :
    let run := ((Node.pool count die (modifiers.map .modifier)).evaluate limits).run s
    let run' := ((Node.pool count die (modifiers'.map .modifier)).evaluate limits).run s
    run.result = run'.result ∧ run.requests = run'.requests ∧ run.warnings = run'.warnings ∧
      run.source = run'.source := by
  intro run run'
  have hnone {ms : List Modifier} (h : ∀ m ∈ ms, m.phase ≠ .none) :
      ms.filter (·.phase = .none) = [] := by
    rw [List.filter_eq_nil_iff]
    simpa using h
  have hphased : phased modifiers = phased modifiers' := by
    refine phased_congr fun p => ?_
    cases p with
    | none => rw [hnone hm, hnone hm']
    | generation => exact hgeneration
    | selection => exact hselection
    | finalization => exact hfinalization
  have hrun : run = run' := by
    simp only [run, run', Node.evaluate, evaluatePool_map, hphased]
  rw [hrun]
  exact ⟨rfl, rfl, rfl, rfl⟩

/-- `3d6>4!=6+1` and `3d6!=6>4+1` : the six explodes before the dice are counted. -/
theorem run_eq_of_phases_eq_counted :
    let d : Node := .die (.fresh (.sided 6))
    let explode : Modifier := .onMatch .explode ⟨.known .equal, 6⟩
    let success : Modifier := .onMatch .success ⟨.known .greater, 4⟩
    let one : Modifier := .adjust (.known .plus) 1
    let s := Source.script [6, 2, 5, 1] 0
    let run := ((Node.pool 3 d ([success, explode, one].map .modifier)).evaluate .standard).run s
    let run' := ((Node.pool 3 d ([explode, success, one].map .modifier)).evaluate .standard).run s
    run.result = run'.result ∧ run'.result.map Evaluation.value = .ok 3 ∧
      run.requests = [⟨1, 7⟩, ⟨1, 7⟩, ⟨1, 7⟩, ⟨1, 7⟩] := by
  intro d explode success one s run run'
  have hm : ∀ m ∈ [success, explode, one], m.phase ≠ .none := by decide
  have hm' : ∀ m ∈ [explode, success, one], m.phase ≠ .none := by decide
  obtain ⟨hresult, hrequests, _, _⟩ := run_eq_of_phases_eq .standard 3 d hm hm' rfl rfl rfl s
  have hvalue : run'.result.map Evaluation.value = .ok 3 := rfl
  have hdrawn : run'.requests = [⟨1, 7⟩, ⟨1, 7⟩, ⟨1, 7⟩, ⟨1, 7⟩] := rfl
  exact ⟨hresult, hvalue, hrequests.trans hdrawn⟩

end Evaluation

end Dice
