import Dice.Proofs.Evaluation.Complement
import Dice.Proofs.Evaluation.Conservation
import Dice.Proofs.Evaluation.Terms

/-!
# Dice.Proofs.Evaluation.Uncounted

A roll beside the same roll without its last phase.

* `Node.uncounted` : the roll without counts of dice and without constants behind its dice.
* `Recounts before after` : dice in their places, of which only the kept ones may be counted.
* `evaluatePool_uncounted` : what the modifiers of the first phases have left is a roll of its own.
* `returns_uncounted` : the same answers lead through both rolls, and the terms of the one are those
  of the other, counted.
-/

namespace Dice

namespace Node

/-- Whether a modifier is applied before the last phase. -/
def early : Node → Bool
  | .modifier m => m.phase ≠ .finalization
  | _ => true

def uncountedTerm : Node → Node
  | .pool count kind modifiers => .pool count kind (modifiers.filter early)
  | n => n

/-- Without counts of dice, and without constants behind the dice of a pool. -/
def uncounted : Node → Node
  | .sum terms => .sum (terms.map fun t => (t.1, t.2.uncountedTerm))
  | n => n.uncountedTerm

theorem filter_early (modifiers : List Modifier) :
    (modifiers.map Node.modifier).filter early =
      (modifiers.filter (·.phase ≠ .finalization)).map .modifier := by
  rw [List.filter_map]
  rfl

end Node

namespace Evaluation

open Draws (Returns)

variable {limits : Limits} {before after : List Event} {answers : List Int}

/-- What was not kept is as before, and was not counted. -/
def Recounts (before after : List Event) : Prop :=
  ∀ (i : Nat) (x : Event), after[i]? = some x → x.isDie = true →
    ∃ y, before[i]? = some y ∧ x.value = y.value ∧
      (y.isKept = true ∨ x.status = y.status ∧ x.mark = .neutral)

theorem Recounts.inGroup (h : Recounts before after) (number : Nat) (sign : Sign) :
    Recounts (before.map (inGroup number sign)) (after.map (inGroup number sign)) := by
  intro i x hx hd
  rw [List.getElem?_map, Option.map_eq_some_iff] at hx
  obtain ⟨x, hx, rfl⟩ := hx
  obtain ⟨y, hy, hstands⟩ := h i x hx hd
  exact ⟨Evaluation.inGroup number sign y, by rw [List.getElem?_map, hy]; rfl, hstands⟩

theorem recounts_settled {selected added : List Event} (hs : ∀ e ∈ selected, e.Unmarked)
    (counts : List Count) (ha : ∀ x ∈ added, x.IsSummary) :
    Recounts selected (selected.map (settled counts) ++ added) := by
  intro i x hx hd
  rcases Nat.lt_or_ge i selected.length with hi | hi
  · rw [List.getElem?_append_left (by simpa using hi), List.getElem?_map,
      List.getElem?_eq_getElem hi] at hx
    obtain rfl := Option.some.inj hx
    refine ⟨_, List.getElem?_eq_getElem hi, settled_value _ _, ?_⟩
    have hunmarked := hs _ (List.getElem_mem hi)
    cases hk : selected[i].isKept with
    | true => exact .inl rfl
    | false =>
      have hdie : selected[i].isKeptDie = false := by simp [Event.isKeptDie, hk]
      have hsame : settled counts selected[i] = selected[i] := by simp [settled, hdie]
      exact .inr ⟨by rw [hsame], by rw [hsame]; exact hunmarked.mark⟩
  · rw [List.getElem?_append_right (by simpa using hi)] at hx
    rw [(ha x (List.mem_of_getElem? hx)).isDie] at hd
    cases hd

/-! ## Pools -/

theorem filter_phased_early (modifiers : List Modifier) :
    (phased (modifiers.filter (·.phase ≠ .finalization))).filter
        (·.phase.number ≤ Phase.selection.number) =
      (phased modifiers).filter (·.phase.number ≤ Phase.selection.number) := by
  have hphase (p : Phase) :=
    filter_phase_filter (fun p => decide (p ≠ .finalization)) p modifiers
  simp only [phased_eq, hphase, List.filter_append,
    filter_beyond (p := .selection) (q := .finalization) (by decide)]
  simp

/-- Nothing is left for the last phase. -/
theorem evaluatePool_uncounted (limits : Limits) (count : Int) (die : Node)
    (modifiers : List Modifier) :
    evaluatePool limits count die ((modifiers.filter (·.phase ≠ .finalization)).map .modifier) =
      (poolThrough limits count die .selection modifiers).bind fun events =>
        .done ⟨keptSum events, events⟩ := by
  have hnone : (modifiers.filter (·.phase ≠ .finalization)).filter (·.phase = .finalization) = [] :=
    by simp [List.filter_filter]
  have hthrough : poolThrough limits count die .selection
      (modifiers.filter (·.phase ≠ .finalization)) =
        poolThrough limits count die .selection modifiers := by
    rw [poolThrough, poolThrough, filter_phased_early]
  rw [evaluatePool_poolThrough, hnone, hthrough]
  rfl

theorem returns_uncountedTerm {n : Node} (hn : n.IsTerm) {part : Evaluation}
    (h : Returns (n.evaluate limits) answers part) :
    ∃ bare, Returns (n.uncountedTerm.evaluate limits) answers bare ∧
      Recounts bare.events part.events := by
  cases hn with
  | constant value =>
    obtain ⟨_, rfl⟩ := Draws.returns_done_iff.mp h
    refine ⟨⟨value, [.summary .constant value]⟩, h, fun i x hx hd => ?_⟩
    obtain rfl := List.mem_singleton.mp (List.mem_of_getElem? hx)
    cases hd
  | pool count modifiers _ =>
    obtain ⟨_, ms, _, _, _, hms, _⟩ := returns_evaluatePool h
    obtain rfl := eq_map_of_modifiersOf hms
    rw [Node.evaluate, evaluatePool_poolThrough] at h
    obtain ⟨first, selected, _, rfl, hselected, hfinal⟩ := Draws.returns_bind_iff.mp h
    obtain ⟨rest, events, _, rfl, hlast, hdone⟩ := Draws.returns_bind_iff.mp hfinal
    obtain ⟨rfl, rfl⟩ := Draws.returns_done_iff.mp hdone
    have hlate : ∀ m ∈ ms.filter (·.phase = .finalization), m.phase = .finalization :=
      fun m hm => of_decide_eq_true (List.mem_filter.mp hm).2
    -- the last phase draws nothing
    obtain ⟨rfl, _⟩ := live_applyAll (fun m hm => by rw [hlate m hm]; decide) hlast
    have hs := unmarked_poolThrough hselected
    obtain ⟨added, hadds, hevents⟩ := Settled.run hs hlate (settled_start selected) rfl hlast
    refine ⟨⟨keptSum selected, selected⟩, ?_, ?_⟩
    · rw [Node.uncountedTerm, Node.filter_early, Node.evaluate, evaluatePool_uncounted]
      exact hselected.bind .done
    · rw [hevents]
      exact recounts_settled hs _ fun x hx => (hadds.summaries x hx).1

/-! ## Sums -/

theorem returns_uncountedTerms {terms : List (Symbol Sign × Node)}
    (hterms : ∀ t ∈ terms, t.2.IsTerm) {number : Nat} {sum e : Evaluation} (sum' : Evaluation)
    (h : Returns (Node.evaluateTerms limits number sum terms) answers e) :
    ∃ (bare : Evaluation) (lists lists' : List (List Event)),
      Returns (Node.evaluateTerms limits number sum'
        (terms.map fun t => (t.1, t.2.uncountedTerm))) answers bare ∧
      bare.events = sum'.events ++ lists.flatten ∧ e.events = sum.events ++ lists'.flatten ∧
      Numbered number lists ∧ Numbered number lists' ∧ lists.length = terms.length ∧
      List.Forall₂ Recounts lists lists' := by
  induction terms generalizing number sum sum' answers with
  | nil =>
    obtain ⟨rfl, rfl⟩ := Draws.returns_done_iff.mp h
    exact ⟨sum', [], [], .done, by simp, by simp, .nil _, .nil _, rfl, .nil⟩
  | cons t terms ih =>
    obtain ⟨hterm, hrest⟩ := List.forall_mem_cons.mp hterms
    obtain ⟨symbol, n⟩ := t
    cases symbol with
    | unknown found => exact absurd h Draws.not_returns_fail
    | known sign =>
      rw [Node.evaluateTerms] at h
      obtain ⟨first, part, rest, rfl, hpart, hlater⟩ := Draws.returns_bind_iff.mp h
      obtain ⟨bare, hbare, hrecounts⟩ := returns_uncountedTerm hterm hpart
      obtain ⟨total, lists, lists', htotal, hevents, hevents', hnumbered, hnumbered', hlength,
        hall⟩ := ih hrest ⟨sum'.value + sign.apply bare.value,
          sum'.events ++ bare.events.map (inGroup number sign)⟩ hlater
      refine ⟨total, bare.events.map (inGroup number sign) :: lists,
        part.events.map (inGroup number sign) :: lists', ?_, ?_, ?_,
        .cons (group_map_inGroup number sign _) hnumbered,
        .cons (group_map_inGroup number sign _) hnumbered', by simp [hlength],
        .cons (hrecounts.inGroup number sign) hall⟩
      · exact hbare.bind htotal
      · rw [hevents, List.append_assoc, List.flatten_cons]
      · rw [hevents', List.append_assoc, List.flatten_cons]

/-- The same answers lead through the roll without its last phase. Term by term its dice are those
of the roll, and only the kept ones can be counted. -/
theorem returns_uncounted {n : Node} (hn : n.IsFlat) {e : Evaluation}
    (h : Returns (n.evaluate limits) answers e) :
    ∃ bare, Returns (n.uncounted.evaluate limits) answers bare ∧
      List.Forall₂ Recounts (n.uncounted.termEvents bare.events) (n.termEvents e.events) := by
  cases hn with
  | term hterm =>
    obtain ⟨bare, hbare, hrecounts⟩ := returns_uncountedTerm hterm h
    cases hterm <;> exact ⟨bare, hbare, .cons hrecounts .nil⟩
  | @sum terms hterms =>
    obtain ⟨bare, lists, lists', hbare, hevents, hevents', hnumbered, hnumbered', hlength, hall⟩ :=
      returns_uncountedTerms (fun t ht => (hterms t ht).2) ⟨0, []⟩ h
    rw [List.nil_append] at hevents hevents'
    refine ⟨bare, hbare, ?_⟩
    rw [hevents, hevents', Node.uncounted, hnumbered.termEvents (by simpa using hlength.symm),
      hnumbered'.termEvents (hlength.symm.trans hall.length_eq)]
    exact hall

end Evaluation

end Dice
