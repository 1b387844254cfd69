import Mathlib.Algebra.Ring.Int.Defs
import Dice.Proofs.Draws.Run
import Dice.Proofs.Evaluation.Growth

/-!
# Dice.Proofs.Evaluation.Sum

The value of a roll is the sum of what its kept events contribute.

* `Node.IsTerm`, `Node.IsFlat` : constants and pools, and sums of them.
* `returns_evaluatePool` : a pool is drawn, modified by phase, and summed up.
* `termRuns` : the terms of a sum, each run by itself on what the terms before it leave.
* `attributed` : the events of terms one after another, each with the number and sign of its term.
* `value_eq_sum_kept` : the value is the signed sum of the kept events, and every term of a sum
  accounts for its own events.
-/

namespace Dice

/-- A constant, or a pool of dice that can be rolled. -/
inductive Node.IsTerm : Node → Prop where
  | constant (value : Int) : IsTerm (.constant value)
  | pool (count : Int) {kind : DieKind} (modifiers : List Node) :
      kind.range?.isSome → IsTerm (.pool count (.die (.fresh kind)) modifiers)

/-- A sum has terms that are no sums, with known signs. -/
inductive Node.IsFlat : Node → Prop where
  | term {n : Node} : n.IsTerm → IsFlat n
  | sum {terms : List (Symbol Sign × Node)} :
      (∀ t ∈ terms, (∃ sign, t.1 = .known sign) ∧ t.2.IsTerm) → IsFlat (.sum terms)

namespace Evaluation

open Draws (Returns)

/-! ## Pools -/

theorem returns_evaluatePool {limits : Limits} {count : Int} {die : Node} {modifiers : List Node}
    {answers : List Int} {e : Evaluation}
    (h : Returns (evaluatePool limits count die modifiers) answers e) :
    ∃ d ms first rest, poolDie? die = some d ∧ modifiersOf modifiers = .ok ms ∧
      answers = first ++ rest ∧ first.length = count.toNat ∧
      Returns (applyAll limits (phased ms) none (first.map (Event.drawn d .initial))) rest e.events ∧
      e.value = keptSum e.events := by
  unfold evaluatePool at h
  split at h
  · exact absurd h Draws.not_returns_fail
  · rename_i d hd
    obtain ⟨first, events, _, rfl, hdraw, hmods⟩ := Draws.returns_bind_iff.mp h
    obtain ⟨_, ms, _, rfl, hms, hphases⟩ := Draws.returns_bind_iff.mp hmods
    obtain ⟨rest, _, _, rfl, happly, hdone⟩ := Draws.returns_bind_iff.mp hphases
    obtain ⟨rfl, hok⟩ := Draws.returns_ofExcept_iff.mp hms
    obtain ⟨rfl, rfl⟩ := Draws.returns_done_iff.mp hdone
    obtain ⟨rfl, hlen⟩ := returns_drawPool hdraw
    exact ⟨d, ms, first, rest, hd, hok, by simp, hlen, by simpa using happly, rfl⟩

theorem Grows.ungrouped {before after : List Event} {answers : List Int}
    (h : Grows before answers after) (hb : ∀ e ∈ before, e.Ungrouped) :
    ∀ e ∈ after, e.Ungrouped := by
  obtain ⟨old, new, rfl, hold, hnew, _⟩ := h.grown
  intro e he
  rcases List.mem_append.mp he with he | he
  · have hbare : e.bare ∈ before.map Event.bare := hold ▸ List.mem_map_of_mem he
    obtain ⟨b, hmem, hbe⟩ := List.mem_map.mp hbare
    obtain ⟨hg, hs⟩ := hb b hmem
    constructor
    · rw [← Event.bare_group e, ← hbe, Event.bare_group, hg]
    · rw [← Event.bare_groupSign e, ← hbe, Event.bare_groupSign, hs]
  · exact hnew e he

theorem applyAll_ungrouped {limits : Limits} {modifiers : List Modifier}
    {pool : Option (List Bool)} {events after : List Event} {answers : List Int}
    (h : Returns (applyAll limits modifiers pool events) answers after)
    (he : ∀ e ∈ events, e.Ungrouped) : ∀ e ∈ after, e.Ungrouped := by
  induction modifiers generalizing pool events answers with
  | nil =>
    obtain ⟨_, rfl⟩ := Draws.returns_done_iff.mp h
    exact he
  | cons m modifiers ih =>
    obtain ⟨_, mid, _, _, hm, hrest⟩ := Draws.returns_bind_iff.mp h
    exact ih hrest ((applyModifier_grows hm).ungrouped he)

/-! ## Sums of kept events -/

theorem total_eq_sum (events : List Event) : Event.total events = (events.map Event.value).sum := by
  induction events with
  | nil => rfl
  | cons e events ih => simp [Event.total, ih]

theorem total_append (first rest : List Event) :
    Event.total (first ++ rest) = Event.total first + Event.total rest := by
  simp [total_eq_sum]

theorem keptSum_append (first rest : List Event) :
    keptSum (first ++ rest) = keptSum first + keptSum rest := by
  rw [keptSum, List.filter_append, total_append]
  rfl

/-- What the kept events contribute, with the signs of their terms. -/
def signedSum (events : List Event) : Int :=
  ((events.filter Event.isKept).map Event.signedValue).sum

theorem signedSum_append (first rest : List Event) :
    signedSum (first ++ rest) = signedSum first + signedSum rest := by
  simp [signedSum]

theorem signedSum_eq_keptSum {events : List Event} (h : ∀ e ∈ events, e.Ungrouped) :
    signedSum events = keptSum events := by
  rw [signedSum, keptSum, total_eq_sum]
  refine congrArg List.sum (List.map_congr_left ?_)
  intro e he
  simp [Event.signedValue, (h e (List.mem_filter.mp he).1).2]

theorem signedSum_inGroup (number : Nat) (sign : Sign) (events : List Event) :
    signedSum (events.map (inGroup number sign)) = sign.apply (keptSum events) := by
  induction events with
  | nil => cases sign <;> rfl
  | cons e events ih =>
    have hkept : (inGroup number sign e).isKept = e.isKept := rfl
    simp only [signedSum, keptSum] at ih ⊢
    rw [List.map_cons, List.filter_cons, List.filter_cons, hkept]
    split
    · rw [List.map_cons, List.sum_cons, ih, Event.total]
      cases sign with
      | plus => simp [Sign.apply, Sign.factor, Event.signedValue, inGroup]
      | minus =>
        simp only [Sign.apply, Sign.factor, Event.signedValue, inGroup, if_true]
        omega
    · exact ih

/-- A term is worth the plain values of its kept events, none of which belongs to a group. -/
theorem returns_term {limits : Limits} {n : Node} (hn : n.IsTerm) {answers : List Int}
    {e : Evaluation} (h : Returns (n.evaluate limits) answers e) :
    e.value = keptSum e.events ∧ ∀ event ∈ e.events, event.Ungrouped := by
  cases hn with
  | constant value =>
    obtain ⟨_, rfl⟩ := Draws.returns_done_iff.mp h
    refine ⟨?_, ?_⟩
    · simp [keptSum, Event.summary, Event.isKept, Event.total]
    · simp [Event.Ungrouped, Event.summary]
  | pool count modifiers _ =>
    obtain ⟨d, ms, first, rest, _, _, _, _, happly, hv⟩ := returns_evaluatePool h
    refine ⟨hv, applyAll_ungrouped happly ?_⟩
    simp [ungrouped_drawn]

/-! ## Terms of a sum -/

variable {σ : Type} [RandomSource σ]

/-- Every term by itself, on the source that the terms before it leave. -/
def termRuns (limits : Limits) : List (Symbol Sign × Node) → σ → List (Run σ Evaluation)
  | [], _ => []
  | (_, n) :: terms, s =>
    (n.evaluate limits).run s :: termRuns limits terms ((n.evaluate limits).run s).source

theorem length_termRuns (limits : Limits) (terms : List (Symbol Sign × Node)) (s : σ) :
    (termRuns limits terms s).length = terms.length := by
  induction terms generalizing s with
  | nil => rfl
  | cons t terms ih => simp [termRuns, ih]

/-- The events of terms in order, each with the number and the sign of its term. -/
def attributed (number : Nat) : List (Symbol Sign × Node) → List Evaluation → List Event
  | (sign, _) :: terms, part :: parts =>
    part.events.map (fun e => { e with group := some number, groupSign := sign.known? }) ++
      attributed (number + 1) terms parts
  | _, _ => []

/-- The sum so far goes on by the terms that are left. -/
theorem run_evaluateTerms {limits : Limits} {terms : List (Symbol Sign × Node)}
    (hterms : ∀ t ∈ terms, (∃ sign, t.1 = .known sign) ∧ t.2.IsTerm)
    {number : Nat} {sum e : Evaluation} {s : σ}
    (h : ((Node.evaluateTerms limits number sum terms).run s).result = .ok e) :
    ∃ parts : List Evaluation,
      (termRuns limits terms s).map Run.result = parts.map .ok ∧
      (∀ part ∈ parts, part.value = keptSum part.events) ∧
      e.events = sum.events ++ attributed number terms parts ∧
      e.value = sum.value + signedSum (attributed number terms parts) := by
  induction terms generalizing number sum s with
  | nil =>
    cases h
    exact ⟨[], rfl, by simp, by simp [attributed], by simp [attributed, signedSum]⟩
  | cons t terms ih =>
    obtain ⟨⟨⟨sign, hsign⟩, hterm⟩, hrest⟩ := List.forall_mem_cons.mp hterms
    obtain ⟨symbol, n⟩ := t
    cases hsign
    rw [Node.evaluateTerms, Draws.run_bind] at h
    obtain ⟨part, hpart, hlater⟩ := Run.exists_of_andThen_ok h
    obtain ⟨parts, hruns, hvalues, hevents, hvalue⟩ := ih hrest hlater
    have hpv := (returns_term hterm (Draws.returns_answersTo hpart).1).1
    refine ⟨part :: parts, ?_, ?_, ?_, ?_⟩
    · simp [termRuns, hpart, hruns]
    · simpa using ⟨hpv, hvalues⟩
    · rw [hevents, List.append_assoc]; rfl
    · have hblock := signedSum_inGroup number sign part.events
      rw [hvalue, attributed, signedSum_append, hpv, ← hblock, Int.add_assoc]; rfl

theorem group_attributed {number : Nat} {terms : List (Symbol Sign × Node)}
    {parts : List Evaluation} : ∀ e ∈ attributed number terms parts,
      ∃ i, number ≤ i ∧ e.group = some (i : Int) := by
  induction terms generalizing number parts with
  | nil => simp [attributed]
  | cons t terms ih =>
    cases parts with
    | nil => simp [attributed]
    | cons part parts =>
      intro e he
      rcases List.mem_append.mp he with he | he
      · obtain ⟨e, _, rfl⟩ := List.mem_map.mp he
        exact ⟨number, Nat.le_refl _, rfl⟩
      · obtain ⟨i, hi, hg⟩ := ih e he
        exact ⟨i, by omega, hg⟩

/-- The kept events of one group are those of one term. -/
theorem filter_group_attributed (number : Nat) {i : Nat} {terms : List (Symbol Sign × Node)}
    {parts : List Evaluation} {part : Evaluation} (hlen : parts.length = terms.length)
    (h : parts[i]? = some part) :
    ((attributed number terms parts).filter fun e =>
        e.isKept && e.group = some ((number + i : Nat) : Int)).map Event.value =
      (part.events.filter Event.isKept).map Event.value := by
  induction terms generalizing number parts i with
  | nil =>
    obtain rfl : parts = [] := by simpa using hlen
    simp at h
  | cons t terms ih =>
    cases parts with
    | nil => simp at hlen
    | cons head parts =>
      rw [attributed, List.filter_append]
      cases i with
      | zero =>
        obtain rfl : head = part := by simpa using h
        have hlater : (attributed (number + 1) terms parts).filter
            (fun e => e.isKept && e.group = some ((number + 0 : Nat) : Int)) = [] := by
          rw [List.filter_eq_nil_iff]
          intro e he
          obtain ⟨j, hj, hg⟩ := group_attributed e he
          simp only [hg, Option.some.injEq, Int.natCast_inj, Bool.and_eq_true, decide_eq_true_eq]
          omega
        rw [hlater, List.append_nil, List.filter_map, List.map_map]
        simp only [Function.comp_def, Nat.add_zero, decide_true, Bool.and_true]
        rfl
      | succ i =>
        have hhead : (head.events.map fun e =>
              { e with group := some (number : Int), groupSign := t.1.known? }).filter
            (fun e => e.isKept && e.group = some ((number + (i + 1) : Nat) : Int)) = [] := by
          rw [List.filter_eq_nil_iff]
          intro e he
          obtain ⟨e, _, rfl⟩ := List.mem_map.mp he
          simp only [Option.some.injEq, Int.natCast_inj, Bool.and_eq_true, decide_eq_true_eq]
          omega
        rw [hhead, List.nil_append, show number + (i + 1) = number + 1 + i by omega]
        exact ih (number + 1) (by simpa using hlen) (by simpa using h)

/-! ## The value of a roll -/

/-- The value is the signed sum of the kept events. In a sum the events stand in the order of the
terms, each with the number and sign of its term, and the kept events of a term sum up to what the
term is worth on the source that the terms before it leave; no other event belongs to a group. -/
theorem value_eq_sum_kept (limits : Limits) {n : Node} (hn : n.IsFlat) (s : σ) {e : Evaluation}
    (h : ((n.evaluate limits).run s).result = .ok e) :
    e.value = ((e.events.filter Event.isKept).map Event.signedValue).sum ∧
      (n.IsTerm → ∀ event ∈ e.events, event.group = none ∧ event.groupSign = none) ∧
      ∀ terms, n = .sum terms → ∃ parts : List Evaluation,
        (termRuns limits terms s).map Run.result = parts.map .ok ∧
        e.events = attributed 0 terms parts ∧
        ∀ (i : Nat) (part : Evaluation), parts[i]? = some part →
          ((e.events.filter fun event => event.isKept && event.group = some (i : Int)).map
            Event.value).sum = part.value := by
  cases hn with
  | term hterm =>
    obtain ⟨hv, hu⟩ := returns_term hterm (Draws.returns_answersTo h).1
    refine ⟨?_, fun _ => hu, ?_⟩
    · rw [hv, ← signedSum_eq_keptSum hu]; rfl
    · rintro terms rfl
      cases hterm
  | @sum terms hterms =>
    obtain ⟨parts, hruns, hvalues, hevents, hv⟩ := run_evaluateTerms hterms h
    rw [List.nil_append] at hevents
    refine ⟨?_, fun hterm => (by cases hterm), ?_⟩
    · rw [hv, hevents, Int.zero_add]; rfl
    · rintro _ ⟨rfl⟩
      refine ⟨parts, hruns, hevents, ?_⟩
      intro i part hi
      have hlen : parts.length = terms.length := by
        have := congrArg List.length hruns
        simpa [length_termRuns] using this.symm
      have hfilter := filter_group_attributed 0 hlen hi
      rw [Nat.zero_add] at hfilter
      rw [hevents, hfilter, ← total_eq_sum]
      exact (hvalues part (List.mem_of_getElem? hi)).symm

/-- `2d6!=6 - 2dF^>0 - 3` with one explosion and one compound. -/
theorem value_eq_sum_kept_three_terms :
    let terms : List (Symbol Sign × Node) := [
      (.known .plus, .pool 2 (.die (.fresh (.sided 6)))
        [.modifier (.onMatch .explode ⟨.known .equal, 6⟩)]),
      (.known .minus, .pool 2 (.die (.fresh .fudge))
        [.modifier (.onMatch .compound ⟨.known .greater, 0⟩)]),
      (.known .minus, .constant 3)]
    let s := Source.ofValues [6, 2, 4, 1, -1, 0]
    (Node.sum terms).IsFlat ∧
      ∃ e, (((Node.sum terms).evaluate .standard).run s).result = .ok e ∧ e.value = 9 ∧
        e.value = ((e.events.filter Event.isKept).map Event.signedValue).sum := by
  intro terms s
  have hflat : (Node.sum terms).IsFlat := by
    refine .sum ?_
    simp only [terms, List.mem_cons, List.not_mem_nil, or_false, forall_eq_or_imp, forall_eq]
    exact ⟨⟨⟨_, rfl⟩, .pool 2 _ rfl⟩, ⟨⟨_, rfl⟩, .pool 2 _ rfl⟩, ⟨_, rfl⟩, .constant 3⟩
  refine ⟨hflat, _, rfl, rfl, ?_⟩
  exact (value_eq_sum_kept .standard hflat s rfl).1

end Evaluation

end Dice
