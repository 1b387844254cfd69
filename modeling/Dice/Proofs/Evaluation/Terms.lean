import Mathlib.Data.List.SplitBy
import Dice.Report
import Dice.Proofs.Evaluation.Safety
import Dice.Proofs.Evaluation.Sum
import Dice.Proofs.Notation.Composition

/-!
# Dice.Proofs.Evaluation.Terms

The events of a roll, term by term.

* `Node.termEvents` : the events that carry the number of a term, for every term of a tree.
* `OfTerm` : the events of one term, by itself or in a sum.
* `Numbered` : lists of events with numbers that go up by one.
* `isFlat_of_wellFormed` : rolls that are read have terms that are no sums.
* `ofTerm_termEvents` : every event of a roll belongs to one of its terms, and the events that stand
  together are those of a term.
-/

namespace Dice

/-- In a sum the events with the number of the term, else all events. -/
def Node.termEvents (n : Node) (events : List Event) : List (List Event) :=
  match n with
  | .sum terms =>
    (List.range terms.length).map fun (i : Nat) => events.filter fun e => e.group = some (i : Int)
  | _ => [events]

namespace Evaluation

open Draws (Returns)

/-- What a term has come to by itself, or in a sum with its number and sign. -/
inductive OfTerm (limits : Limits) : Symbol Sign × Node → List Event → Prop where
  | alone {n : Node} {answers : List Int} {part : Evaluation} :
      Returns (n.evaluate limits) answers part → OfTerm limits (.known .plus, n) part.events
  | inSum {sign : Sign} {n : Node} {answers : List Int} {part : Evaluation} (number : Nat) :
      Returns (n.evaluate limits) answers part →
      OfTerm limits (.known sign, n) (part.events.map (inGroup number sign))

/-! ## Numbered lists -/

inductive Numbered : Nat → List (List Event) → Prop where
  | nil (number : Nat) : Numbered number []
  | cons {number : Nat} {events : List Event} {later : List (List Event)} :
      (∀ e ∈ events, e.group = some (number : Int)) → Numbered (number + 1) later →
      Numbered number (events :: later)

variable {number : Nat} {lists : List (List Event)}

theorem Numbered.group (h : Numbered number lists) :
    ∀ e ∈ lists.flatten, ∃ i, number ≤ i ∧ e.group = some (i : Int) := by
  induction h with
  | nil => simp
  | @cons number events later hfirst _ ih =>
    intro e he
    rcases List.mem_append.mp he with he | he
    · exact ⟨number, Nat.le_refl _, hfirst e he⟩
    · obtain ⟨i, hi, hg⟩ := ih e he
      exact ⟨i, by omega, hg⟩

theorem Numbered.group_ne (h : Numbered (number + 1) lists) :
    ∀ e ∈ lists.flatten, e.group ≠ some (number : Int) := by
  intro e he hg
  obtain ⟨i, hi, hg'⟩ := h.group e he
  rw [hg, Option.some.injEq, Int.natCast_inj] at hg'
  omega

/-- The numbers tell the lists apart. -/
theorem Numbered.filter (h : Numbered number lists) :
    ((List.range lists.length).map fun i =>
      lists.flatten.filter fun e => e.group = some ((number + i : Nat) : Int)) = lists := by
  induction h with
  | nil => rfl
  | @cons number events later hfirst hlater ih =>
    have hhead : (events ++ later.flatten).filter (fun e => e.group = some (number : Int)) =
        events := by
      rw [List.filter_append, List.filter_eq_self.mpr (by simpa using hfirst),
        List.filter_eq_nil_iff.mpr (by simpa using hlater.group_ne), List.append_nil]
    have htail (i : Nat) : (events ++ later.flatten).filter
          (fun e => e.group = some ((number + (i + 1) : Nat) : Int)) =
        later.flatten.filter fun e => e.group = some ((number + 1 + i : Nat) : Int) := by
      have hnone : events.filter (fun e => e.group = some ((number + (i + 1) : Nat) : Int)) = [] := by
        rw [List.filter_eq_nil_iff]
        intro e he
        simp only [hfirst e he, Option.some.injEq, Int.natCast_inj, decide_eq_true_eq]
        omega
      rw [List.filter_append, hnone, List.nil_append, Nat.add_assoc, Nat.add_comm 1]
    rw [List.length_cons, List.range_succ_eq_map, List.map_cons, List.map_map, List.flatten_cons]
    refine congrArg₂ List.cons hhead ?_
    calc (List.range later.length).map _
        = (List.range later.length).map fun i =>
            later.flatten.filter fun e => e.group = some ((number + 1 + i : Nat) : Int) :=
          List.map_congr_left fun i _ => htail i
      _ = later := ih

theorem groups_of_same {events : List Event} {group : Option Int}
    (h : ∀ e ∈ events, e.group = group) (hne : events ≠ []) : groups events = [events] := by
  refine List.splitBy_of_isChain hne (List.Pairwise.isChain ?_)
  refine List.pairwise_of_forall_mem_list fun a ha b hb => ?_
  rw [h a ha, h b hb]
  exact decide_eq_true rfl

/-- So they are the terms of a sum. -/
theorem Numbered.termEvents (h : Numbered 0 lists) {terms : List (Symbol Sign × Node)}
    (hlength : terms.length = lists.length) :
    (Node.sum terms).termEvents lists.flatten = lists := by
  have hfilter := h.filter
  rw [← hlength] at hfilter
  simpa [Node.termEvents] using hfilter

/-- Neighbours of one list have the same number, and those of two lists have not. -/
theorem Numbered.groups_flatten (h : Numbered number lists) (hne : ∀ events ∈ lists, events ≠ []) :
    groups lists.flatten = lists := by
  induction h with
  | nil => rfl
  | @cons number events later hfirst hlater ih =>
    obtain ⟨hevents, hrest⟩ := List.forall_mem_cons.mp hne
    have happend : groups (events ++ later.flatten) = groups events ++ groups later.flatten := by
      refine List.splitBy_append fun a ha b hb => decide_eq_false fun heq => ?_
      rw [hfirst a (List.mem_of_getLast? ha)] at heq
      exact hlater.group_ne b (List.mem_of_head? hb) heq.symm
    rw [List.flatten_cons, happend, groups_of_same hfirst hevents, ih hrest]
    rfl

/-! ## Terms -/

theorem group_map_inGroup (number : Nat) (sign : Sign) (events : List Event) :
    ∀ e ∈ events.map (inGroup number sign), e.group = some (number : Int) := by
  intro e he
  obtain ⟨x, _, rfl⟩ := List.mem_map.mp he
  rfl

theorem returns_evaluateTerms {limits : Limits} {terms : List (Symbol Sign × Node)}
    {sum e : Evaluation} {answers : List Int}
    (h : Returns (Node.evaluateTerms limits number sum terms) answers e) :
    ∃ lists : List (List Event), e.events = sum.events ++ lists.flatten ∧ Numbered number lists ∧
      List.Forall₂ (OfTerm limits) terms lists := by
  induction terms generalizing number sum answers with
  | nil =>
    obtain ⟨_, rfl⟩ := Draws.returns_done_iff.mp h
    exact ⟨[], (List.append_nil _).symm, .nil _, .nil⟩
  | cons t terms ih =>
    obtain ⟨symbol, n⟩ := t
    cases symbol with
    | unknown found => exact absurd h Draws.not_returns_fail
    | known sign =>
      rw [Node.evaluateTerms] at h
      obtain ⟨_, part, _, _, hpart, hlater⟩ := Draws.returns_bind_iff.mp h
      obtain ⟨lists, hevents, hnumbered, hterms⟩ := ih hlater
      refine ⟨part.events.map (inGroup number sign) :: lists, ?_,
        .cons (group_map_inGroup number sign _) hnumbered, .cons (.inSum number hpart) hterms⟩
      rw [hevents, List.append_assoc, List.flatten_cons]

theorem isTerm_of_mem_terms {n : Node} (hn : n.IsFlat) : ∀ t ∈ n.terms, t.2.IsTerm := by
  cases hn with
  | term hterm =>
    have halone : n.terms = [(.known .plus, n)] := by cases hterm <;> rfl
    rw [halone]
    exact List.forall_mem_singleton.mpr hterm
  | sum hterms => exact fun t ht => (hterms t ht).2

/-- Every event belongs to one term, and the terms follow one another. The groups in which events
stand together are the terms, as long as none of them is empty. -/
theorem ofTerm_termEvents {limits : Limits} {n : Node} (hn : n.IsFlat) {answers : List Int}
    {e : Evaluation} (h : Returns (n.evaluate limits) answers e) :
    (n.termEvents e.events).flatten = e.events ∧
      List.Forall₂ (OfTerm limits) n.terms (n.termEvents e.events) ∧
      ((∀ events ∈ n.termEvents e.events, events ≠ []) →
        groups e.events = n.termEvents e.events) := by
  cases hn with
  | term hterm =>
    have halone : n.termEvents e.events = [e.events] ∧ n.terms = [(.known .plus, n)] := by
      cases hterm <;> exact ⟨rfl, rfl⟩
    obtain ⟨_, hungrouped⟩ := returns_term hterm h
    rw [halone.1, halone.2]
    refine ⟨List.flatten_singleton, .cons (.alone h) .nil, fun hne => ?_⟩
    exact groups_of_same (fun x hx => (hungrouped x hx).1) (hne e.events List.mem_cons_self)
  | @sum terms _ =>
    obtain ⟨lists, hevents, hnumbered, hterms⟩ := returns_evaluateTerms h
    rw [List.nil_append] at hevents
    rw [hevents, hnumbered.termEvents hterms.length_eq]
    exact ⟨rfl, hterms, hnumbered.groups_flatten⟩

theorem exists_ofTerm {limits : Limits} {terms : List (Symbol Sign × Node)}
    (h : List.Forall₂ (OfTerm limits) terms lists) {events : List Event} (he : events ∈ lists) :
    ∃ t ∈ terms, OfTerm limits t events := by
  obtain ⟨i, hi, rfl⟩ := List.getElem_of_mem he
  have hi' : i < terms.length := h.length_eq ▸ hi
  exact ⟨terms[i], List.getElem_mem hi', h.get hi' hi⟩

end Evaluation

namespace Notation

theorem isTerm_pool {n : Int} {d : Die} (hd : WellFormedDie d) (modifiers : List Node) :
    (Node.pool n (.die d) modifiers).IsTerm := by
  obtain ⟨kind, rfl, hkind⟩ := known_of_wellFormedDie hd
  exact .pool n modifiers hkind

theorem isTerm_of_wellFormedTerm {r : Node} (h : WellFormedTerm r) : r.IsTerm := by
  cases h with
  | constant => exact .constant _
  | pool _ hd _ => exact isTerm_pool hd _

theorem isFlat_of_wellFormed {r : Node} (h : WellFormed r) : r.IsFlat := by
  cases h with
  | term h => exact .term (isTerm_of_wellFormedTerm h)
  | pool _ hd _ _ => exact .term (isTerm_pool hd _)
  | sum h _ hterms =>
    refine .sum fun t ht => ⟨?_, isTerm_of_wellFormedTerm (wellFormedTerm_of_mem h hterms t ht)⟩
    rcases List.mem_cons.mp ht with rfl | ht
    · exact ⟨.plus, rfl⟩
    · obtain ⟨term, _, rfl⟩ := List.mem_map.mp ht
      exact ⟨term.1, rfl⟩

end Notation

end Dice
