import Dice.Proofs.Evaluation.Sum

/-!
# Dice.Proofs.Evaluation.Replay

A trace holds every draw once and in order, and can be replayed.

* `Node.trace` : the evaluation of a tree with the provenance of every event, noted as it comes in.
* `trace_fst` : apart from the notes this is the evaluation of the tree.
* `returns_trace` : the drawn events show the answers, in order.
* `answers_eq_drawn_and_replay` : so do the answers of any source, and a script of them gives the
  same evaluation and is used up, while a shorter one is used up and fails.
-/

namespace Dice

namespace Evaluation

open Draws (Returns)

/-! ## Evaluation with provenance -/

/-- The provenance of the events that came in last. -/
def incoming (before after : List Event) : List Provenance :=
  (after.drop before.length).map Event.provenance

def traceAll (limits : Limits) : List Modifier → Option (List Bool) → List Event →
    List Provenance → Draws (List Event × List Provenance)
  | [], _, events, notes => .done (events, notes)
  | m :: modifiers, pool, events, notes =>
    let pool := if m.phase = .finalization then some (pool.getD (poolOf events)) else pool
    (applyModifier limits m (pool.getD []) events).bind fun after =>
      traceAll limits modifiers pool after (notes ++ incoming events after)

def tracePool (limits : Limits) (count : Int) (die : Node) (modifiers : List Node) :
    Draws (Evaluation × List Provenance) :=
  match poolDie? die with
  | none => .fail (.unknownDie die)
  | some d =>
    (drawPool d count.toNat []).bind fun events =>
      (Draws.ofExcept id (modifiersOf modifiers)).bind fun modifiers =>
        (traceAll limits (phased modifiers) none events (incoming [] events)).bind fun r =>
          .done (⟨keptSum r.1, r.1⟩, r.2)

end Evaluation

namespace Node

open Evaluation

mutual

/-- The events of a tree, and what each of them was as it came in. -/
def trace (limits : Limits) : Node → Draws (Evaluation × List Provenance)
  | .pool count kind modifiers => tracePool limits count kind modifiers
  | .sum terms => traceTerms limits 0 (⟨0, []⟩, []) terms
  | .constant value => .done (⟨value, [.summary .constant value]⟩, [.added])
  | n => (n.evaluate limits).bind fun e => .done (e, [])
termination_by structural n => n

def traceTerms (limits : Limits) (number : Nat) (sum : Evaluation × List Provenance) :
    List (Symbol Sign × Node) → Draws (Evaluation × List Provenance)
  | [] => .done sum
  | (.unknown found, _) :: _ => .fail (.unknownSign found)
  | (.known sign, roll) :: terms =>
    (roll.trace limits).bind fun term =>
      traceTerms limits (number + 1)
        (⟨sum.1.value + sign.apply term.1.value,
          sum.1.events ++ term.1.events.map (inGroup number sign)⟩, sum.2 ++ term.2)
        terms
termination_by structural terms => terms

end

end Node

namespace Evaluation

open Draws (Returns)

theorem traceAll_fst (limits : Limits) (modifiers : List Modifier) (pool : Option (List Bool))
    (events : List Event) (notes : List Provenance) :
    ((traceAll limits modifiers pool events notes).bind fun r => .done r.1) =
      applyAll limits modifiers pool events := by
  induction modifiers generalizing pool events notes with
  | nil => rfl
  | cons m modifiers ih =>
    rw [traceAll, applyAll, Draws.bind_assoc]
    simp only [ih]

theorem tracePool_fst (limits : Limits) (count : Int) (die : Node) (modifiers : List Node) :
    ((tracePool limits count die modifiers).bind fun r => .done r.1) =
      evaluatePool limits count die modifiers := by
  unfold tracePool evaluatePool
  cases poolDie? die with
  | none => rfl
  | some d =>
    simp only [Draws.bind_assoc, Draws.done_bind]
    congr 1; funext events; congr 1; funext ms
    rw [← traceAll_fst limits (phased ms) none events (incoming [] events), Draws.bind_assoc]
    rfl

mutual

/-- The notes are taken along and change nothing. -/
theorem trace_fst (limits : Limits) :
    (n : Node) → ((n.trace limits).bind fun r => .done r.1) = n.evaluate limits
  | .pool count kind modifiers => tracePool_fst limits count kind modifiers
  | .sum terms => traceTerms_fst limits terms 0 (⟨0, []⟩, [])
  | .constant _ => rfl
  | .stranger _ => rfl
  | .die _ => rfl
  | .modifier _ => rfl
  | .bareRoll => rfl
  | .bare => rfl
termination_by structural n => n

theorem traceTerms_fst (limits : Limits) :
    (terms : List (Symbol Sign × Node)) → (number : Nat) → (sum : Evaluation × List Provenance) →
      ((Node.traceTerms limits number sum terms).bind fun r => .done r.1) =
        Node.evaluateTerms limits number sum.1 terms
  | [], _, _ => rfl
  | (.unknown _, _) :: _, _, _ => rfl
  | (.known sign, roll) :: terms, number, sum => by
    rw [Node.traceTerms, Node.evaluateTerms, Draws.bind_assoc, ← trace_fst limits roll,
      Draws.bind_assoc]
    simp only [Draws.done_bind, traceTerms_fst limits terms]
termination_by structural terms => terms

end

/-! ## The values of the drawn events -/

theorem isSome_range_of_poolDie? {die : Node} {d : Die} (h : poolDie? die = some d) :
    d.range?.isSome := by
  unfold poolDie? at h
  split at h
  · rename_i kind
    by_cases hk : kind.range?.isSome
    · rw [if_pos hk] at h
      cases h
      exact hk
    · rw [if_neg hk] at h
      cases h
  · cases h

/-- The values of the events that are noted as drawn. -/
def valuesNoted (events : List Event) (notes : List Provenance) : List Int :=
  ((events.zip notes).filter fun p => p.2 = .drawn).map fun p => p.1.value

/-- What a note says of its event at any later time. -/
def NoteFits (p : Event × Provenance) : Prop :=
  (p.2 = .drawn → p.1.isDie = true) ∧
    (p.2 = .added → p.1.isDie = false ∨ p.1.origin = .compound)

/-- Every event has its note, and those noted as drawn show the answers. -/
structure Noted (events : List Event) (notes : List Provenance) (answers : List Int) : Prop where
  length : events.length = notes.length
  fits : ∀ p ∈ events.zip notes, NoteFits p
  values : valuesNoted events notes = answers

theorem noteFits_provenance (e : Event) : NoteFits (e, e.provenance) := by
  unfold NoteFits Event.provenance
  cases hd : e.isDie <;> by_cases ho : e.origin = .compound <;> cases e.isKept <;> simp [ho]

theorem noted_provenance (events : List Event) :
    Noted events (events.map Event.provenance) (drawnValues events) := by
  refine ⟨by simp, ?_, ?_⟩
  · intro p hp
    rw [List.zip_map_right, List.mem_map] at hp
    obtain ⟨⟨e, e'⟩, hmem, rfl⟩ := hp
    rw [List.zip_eq_zipWith, List.zipWith_self, List.mem_map] at hmem
    obtain ⟨_, _, heq⟩ := hmem
    cases heq
    exact noteFits_provenance e
  · induction events with
    | nil => rfl
    | cons e events ih =>
      rw [drawnValues_cons, ← ih]
      by_cases h : e.provenance = .drawn <;> simp [valuesNoted, h]

theorem Noted.append {events more : List Event} {notes ns : List Provenance}
    {answers others : List Int} (h : Noted events notes answers) (hm : Noted more ns others) :
    Noted (events ++ more) (notes ++ ns) (answers ++ others) := by
  refine ⟨by simp [h.length, hm.length], ?_, ?_⟩
  · rw [List.zip_append h.length]
    intro p hp
    rcases List.mem_append.mp hp with hp | hp
    · exact h.fits p hp
    · exact hm.fits p hp
  · rw [valuesNoted, List.zip_append h.length, List.filter_append, List.map_append]
    exact congr (congrArg _ h.values) hm.values

/-- What a note depends on. -/
def look (e : Event) : Int × Option Die × Origin :=
  (e.value, e.die, e.origin)

/-- Notes stay true whatever becomes of the events. -/
theorem Noted.of_look {events later : List Event} {notes : List Provenance} {answers : List Int}
    (h : Noted events notes answers) (hl : later.map look = events.map look) :
    Noted later notes answers := by
  obtain ⟨hlen, hfits, rfl⟩ := h
  induction events generalizing later notes with
  | nil =>
    obtain rfl : later = [] := by simpa using hl
    exact ⟨hlen, hfits, rfl⟩
  | cons e events ih =>
    obtain ⟨e', later, rfl, he, hrest⟩ := List.map_eq_cons_iff.mp hl
    cases notes with
    | nil => simp at hlen
    | cons note notes =>
      simp only [look, Prod.mk.injEq] at he
      obtain ⟨hv, hd, ho⟩ := he
      have hdie : e'.isDie = e.isDie := by simp only [Event.isDie, hd]
      rw [List.zip_cons_cons, List.forall_mem_cons] at hfits
      obtain ⟨hl', hf', hv'⟩ := ih hrest (by simpa using hlen) hfits.2
      refine ⟨by simpa using hl', ?_, ?_⟩
      · rw [List.zip_cons_cons, List.forall_mem_cons]
        refine ⟨?_, hf'⟩
        simpa only [NoteFits, hdie, ho] using hfits.1
      · simp only [valuesNoted, List.zip_cons_cons, List.filter_cons] at hv' ⊢
        split <;> simp [hv, hv']

/-- The events that a modifier adds are noted as they come in. -/
theorem Grows.noted {before after : List Event} {answers used : List Int}
    (h : Grows before answers after) {notes : List Provenance} (hn : Noted before notes used) :
    Noted after (notes ++ incoming before after) (used ++ answers) := by
  obtain ⟨old, new, rfl, hold, _, rfl⟩ := h.grown
  have hlen : old.length = before.length := by simpa using congrArg List.length hold
  have hlook : old.map look = before.map look := by
    have hbare : (old.map Event.bare).map look = (before.map Event.bare).map look := by rw [hold]
    rw [List.map_map, List.map_map] at hbare
    exact hbare
  rw [incoming, ← hlen, List.drop_left]
  exact (hn.of_look hlook).append (noted_provenance new)

/-! ## Traces -/

theorem returns_traceAll {limits : Limits} {modifiers : List Modifier} {pool : Option (List Bool)}
    {events : List Event} {notes : List Provenance} {used answers : List Int}
    (hn : Noted events notes used) {r : List Event × List Provenance}
    (h : Returns (traceAll limits modifiers pool events notes) answers r) :
    Noted r.1 r.2 (used ++ answers) := by
  induction modifiers generalizing pool events notes used answers with
  | nil =>
    obtain ⟨rfl, rfl⟩ := Draws.returns_done_iff.mp h
    simpa using hn
  | cons m modifiers ih =>
    obtain ⟨first, after, rest, rfl, hm, hrest⟩ := Draws.returns_bind_iff.mp h
    rw [← List.append_assoc]
    exact ih ((applyModifier_grows hm).noted hn) hrest

theorem returns_tracePool {limits : Limits} {count : Int} {die : Node} {modifiers : List Node}
    {answers : List Int} {r : Evaluation × List Provenance}
    (h : Returns (tracePool limits count die modifiers) answers r) :
    Noted r.1.events r.2 answers := by
  unfold tracePool at h
  split at h
  · exact absurd h Draws.not_returns_fail
  · rename_i d hd
    obtain ⟨first, events, _, rfl, hdraw, hmods⟩ := Draws.returns_bind_iff.mp h
    obtain ⟨_, ms, _, rfl, hms, hphases⟩ := Draws.returns_bind_iff.mp hmods
    obtain ⟨rest, _, _, rfl, hall, hdone⟩ := Draws.returns_bind_iff.mp hphases
    obtain ⟨rfl, _⟩ := Draws.returns_ofExcept_iff.mp hms
    obtain ⟨rfl, rfl⟩ := Draws.returns_done_iff.mp hdone
    obtain ⟨rfl, _⟩ := returns_drawPool hdraw
    have hstart : Noted (first.map (Event.drawn d .initial))
        (incoming [] (first.map (Event.drawn d .initial))) first := by
      have hdrawn : drawnValues (first.map (Event.drawn d .initial)) = first :=
        drawnValues_drawn (isSome_range_of_poolDie? hd) (by decide) _
      have hnoted := noted_provenance (first.map (Event.drawn d .initial))
      rwa [hdrawn] at hnoted
    simpa using returns_traceAll hstart hall

mutual

theorem returns_trace (limits : Limits) : (n : Node) → {answers : List Int} →
    {r : Evaluation × List Provenance} → Returns (n.trace limits) answers r →
      Noted r.1.events r.2 answers
  | .pool .., _, _, h => returns_tracePool h
  | .sum terms, answers, r, h => by
    have hnone : Noted [] [] [] := ⟨rfl, by simp, rfl⟩
    have hterms : Noted r.1.events r.2 ([] ++ answers) :=
      returns_traceTerms limits terms hnone h
    exact hterms
  | .constant value, _, _, h => by
    obtain ⟨rfl, rfl⟩ := Draws.returns_done_iff.mp h
    exact noted_provenance [.summary .constant value]
  | .stranger _, _, _, h => absurd h Draws.not_returns_fail
  | .die _, _, _, h => absurd h Draws.not_returns_fail
  | .modifier _, _, _, h => absurd h Draws.not_returns_fail
  | .bareRoll, _, _, h => absurd h Draws.not_returns_fail
  | .bare, _, _, h => absurd h Draws.not_returns_fail
termination_by structural n => n

/-- The terms go on behind the events of those before them. -/
theorem returns_traceTerms (limits : Limits) : (terms : List (Symbol Sign × Node)) →
    {number : Nat} → {sum : Evaluation × List Provenance} → {used answers : List Int} →
    {r : Evaluation × List Provenance} → Noted sum.1.events sum.2 used →
    Returns (Node.traceTerms limits number sum terms) answers r →
      Noted r.1.events r.2 (used ++ answers)
  | [], _, _, _, _, _, hn, h => by
    obtain ⟨rfl, rfl⟩ := Draws.returns_done_iff.mp h
    simpa using hn
  | (.unknown _, _) :: _, _, _, _, _, _, _, h => absurd h Draws.not_returns_fail
  | (.known sign, roll) :: terms, number, sum, used, answers, r, hn, h => by
    rw [Node.traceTerms] at h
    obtain ⟨first, term, rest, rfl, hterm, hrest⟩ := Draws.returns_bind_iff.mp h
    have hpart := returns_trace limits roll hterm
    have hlook : (term.1.events.map (inGroup number sign)).map look = term.1.events.map look := by
      simp [look, inGroup]
    rw [← List.append_assoc]
    exact returns_traceTerms limits terms (hn.append (hpart.of_look hlook)) hrest
termination_by structural terms => terms

end

/-! ## Replay -/

variable {σ : Type} [RandomSource σ]

/-- An evaluation that succeeds has a note for every event. -/
theorem exists_noted (limits : Limits) (n : Node) (s : σ) {e : Evaluation}
    (h : ((n.evaluate limits).run s).result = .ok e) :
    ∃ notes : List Provenance, ((n.trace limits).run s).result = .ok (e, notes) ∧
      Noted e.events notes (Draws.answersTo s ((n.evaluate limits).run s).requests) := by
  rw [← trace_fst limits n, Draws.run_bind] at h
  obtain ⟨⟨e', notes⟩, htrace, he⟩ := Run.exists_of_andThen_ok h
  cases he
  have hsame : ((n.trace limits).run s).requests = ((n.evaluate limits).run s).requests := by
    rw [← trace_fst limits n, Draws.run_bind, Run.andThen_ok htrace]
    simp [Run.after, Draws.run_done]
  have hnoted := returns_trace limits n (Draws.returns_answersTo htrace).1
  rw [hsame] at hnoted
  exact ⟨notes, htrace, hnoted⟩

/-- The answers to the requests of an evaluation are, in order, the values of its drawn events:
of all events but constants, counts of dice, and the sums that compounds add. A script that holds
just these answers gives the same evaluation and is used up; every shorter one is used up too, and
the evaluation fails for want of the next answer. -/
theorem answers_eq_drawn_and_replay (limits : Limits) (n : Node) (s : σ) {e : Evaluation}
    (h : ((n.evaluate limits).run s).result = .ok e) :
    let answers := Draws.answersTo s ((n.evaluate limits).run s).requests
    answers.length = ((n.evaluate limits).run s).requests.length ∧
      (∃ notes : List Provenance, ((n.trace limits).run s).result = .ok (e, notes) ∧
        e.events.length = notes.length ∧ (∀ p ∈ e.events.zip notes, NoteFits p) ∧
        ((e.events.zip notes).filter fun p => p.2 = .drawn).map (fun p => p.1.value) = answers) ∧
      ((n.evaluate limits).run (Source.ofValues answers)).result = .ok e ∧
      ((n.evaluate limits).run (Source.ofValues answers)).source.remaining? = some 0 ∧
      ∀ shorter missing, answers = shorter ++ missing → missing ≠ [] →
        ((n.evaluate limits).run (Source.ofValues shorter)).result =
            .error (.source (.exhausted shorter.length)) ∧
          ((n.evaluate limits).run (Source.ofValues shorter)).source.remaining? = some 0 := by
  intro answers
  obtain ⟨hret, hlen⟩ := Draws.returns_answersTo h
  refine ⟨hlen, ?_, ?_⟩
  · obtain ⟨notes, htrace, hn, hf, hv⟩ := exists_noted limits n s h
    exact ⟨notes, htrace, hn, hf, hv⟩
  · obtain ⟨hres, hsrc⟩ := Draws.run_script hret [] []
    simp only [List.nil_append, List.append_nil, List.length_nil, Nat.zero_add] at hres hsrc
    refine ⟨hres, ?_, ?_⟩
    · show (((n.evaluate limits).run (Source.script answers 0)).source).remaining? = some 0
      rw [hsrc]
      simp [Source.remaining?]
    · intro shorter missing hsplit hm
      have hret' : Returns (n.evaluate limits) (shorter ++ missing) e := hsplit ▸ hret
      obtain ⟨hres', hsrc'⟩ := Draws.run_script_short hret' hm []
      simp only [List.nil_append, List.length_nil] at hres' hsrc'
      refine ⟨hres', ?_⟩
      show (((n.evaluate limits).run (Source.script shorter 0)).source).remaining? = some 0
      rw [hsrc']
      simp [Source.remaining?]

/-- `2d6^=6ro>6` : the sum 9 of a compound is rerolled, so that in the end no field tells it from
the draw before it; the script goes on behind the four answers. -/
theorem answers_eq_drawn_and_replay_rerolled_sum :
    let n : Node := .pool 2 (.die (.fresh (.sided 6)))
      [.modifier (.onMatch .compound ⟨.known .equal, 6⟩),
        .modifier (.onMatch .rerollOnce ⟨.known .greater, 6⟩)]
    let s := Source.ofValues [6, 2, 3, 4, 5]
    ∃ e, ((n.evaluate .standard).run s).result = .ok e ∧ e.events.map Event.value = [6, 2, 3, 9, 4] ∧
      Draws.answersTo s ((n.evaluate .standard).run s).requests = [6, 2, 3, 4] ∧
      ((n.evaluate .standard).run (Source.ofValues [6, 2, 3, 4])).result = .ok e := by
  intro n s
  refine ⟨_, rfl, rfl, rfl, ?_⟩
  exact (answers_eq_drawn_and_replay .standard n s rfl).2.2.1

end Evaluation

end Dice
