import Dice.Proofs.Evaluation.Sum

/-!
# Dice.Proofs.Evaluation.Nesting

Sums whose terms are sums. The events of an inner sum lose the signs that it gave them to the sign
of the outer term, so their signed sum leaves the inner signs out.

* `Node.unsigned` : the tree with a plus for every sign.
* `Node.levelled` : the tree with a plus for every sign of its inner sums.
* `evaluate_unsigned` : a tree without signs comes to the plain sum of the same kept events.
* `evaluate_levelled` : a tree without inner signs comes to the signed sum of the same kept events.
* `signedSum_eq_levelled` : so the events of a tree add up to the value of its levelled tree, and to
  its own value if no inner sum subtracts.
-/

namespace Dice

namespace Node

def plusFor : Symbol Sign → Symbol Sign
  | .known _ => .known .plus
  | .unknown found => .unknown found

mutual

/-- A plus for every sign of the tree. -/
def unsigned : Node → Node
  | .sum terms => .sum (unsignedTerms terms)
  | n => n
termination_by structural n => n

def unsignedTerms : List (Symbol Sign × Node) → List (Symbol Sign × Node)
  | [] => []
  | (sign, n) :: terms => (plusFor sign, n.unsigned) :: unsignedTerms terms
termination_by structural terms => terms

end

/-- The signs of the outermost sum stand, inside its terms there is a plus for every sign. -/
def levelled : Node → Node
  | .sum terms => .sum (terms.map fun t => (t.1, t.2.unsigned))
  | n => n

end Node

/-- In a group the event counts in full. -/
def Event.unsigned (e : Event) : Event :=
  { e with groupSign := e.groupSign.map fun _ => .plus }

theorem Event.Ungrouped.unsigned {e : Event} (h : e.Ungrouped) : e.unsigned = e := by
  obtain ⟨_, hsign⟩ := h
  cases e
  cases hsign
  rfl

namespace Evaluation

open Draws (Returns)

/-- The plain sum of the kept events. -/
def unsigned (e : Evaluation) : Evaluation :=
  ⟨keptSum e.events, e.events.map Event.unsigned⟩

/-- The signed sum of the kept events. -/
def recounted (e : Evaluation) : Evaluation :=
  ⟨signedSum e.events, e.events⟩

/-- The evaluation of a tree that is no sum. -/
def Single (e : Evaluation) : Prop :=
  e.value = keptSum e.events ∧ ∀ event ∈ e.events, event.Ungrouped

theorem Single.unsigned {e : Evaluation} (h : e.Single) : e.unsigned = e := by
  obtain ⟨hv, hu⟩ := h
  rw [Evaluation.unsigned, ← hv, List.map_congr_left fun event h => (hu event h).unsigned,
    List.map_id']

theorem Single.recounted {e : Evaluation} (h : e.Single) : e.recounted = e := by
  obtain ⟨hv, hu⟩ := h
  rw [Evaluation.recounted, signedSum_eq_keptSum hu, ← hv]

theorem keptSum_inGroup (number : Nat) (sign : Sign) (events : List Event) :
    keptSum (events.map (inGroup number sign)) = keptSum events := by
  rw [keptSum, keptSum, total_eq_sum, total_eq_sum, List.filter_map, List.map_map]
  rfl

/-! ## Terms behind a sum -/

/-- A sum so far goes on by one term. -/
def addTerm (number : Nat) (sign : Sign) (sum term : Evaluation) : Evaluation :=
  ⟨sum.value + sign.apply term.value, sum.events ++ term.events.map (inGroup number sign)⟩

theorem evaluateTerms_cons (limits : Limits) (number : Nat) (sum : Evaluation) (sign : Sign)
    (n : Node) (terms : List (Symbol Sign × Node)) :
    Node.evaluateTerms limits number sum ((.known sign, n) :: terms) =
      (n.evaluate limits).bind fun term =>
        Node.evaluateTerms limits (number + 1) (addTerm number sign sum term) terms :=
  rfl

theorem unsigned_addTerm (number : Nat) (sign : Sign) (sum term : Evaluation) :
    (addTerm number sign sum term).unsigned =
      addTerm number .plus sum.unsigned term.unsigned := by
  have hvalue : keptSum (sum.events ++ term.events.map (inGroup number sign)) =
      keptSum sum.events + Sign.plus.apply (keptSum term.events) := by
    rw [keptSum_append, keptSum_inGroup, Sign.apply, Sign.factor, Int.one_mul]
  have hevents : (term.events.map (inGroup number sign)).map Event.unsigned =
      (term.events.map Event.unsigned).map (inGroup number .plus) := by
    rw [List.map_map, List.map_map]
    rfl
  rw [addTerm, unsigned, hvalue, List.map_append, hevents]
  rfl

/-- The sign of the term replaces whatever signs its events had. -/
theorem recounted_addTerm (number : Nat) (sign : Sign) (sum term : Evaluation) :
    (addTerm number sign sum term).recounted =
      addTerm number sign sum.recounted term.unsigned := by
  have hevents : (term.events.map Event.unsigned).map (inGroup number sign) =
      term.events.map (inGroup number sign) := by
    rw [List.map_map]
    rfl
  rw [addTerm, recounted, signedSum_append, signedSum_inGroup, addTerm, unsigned, hevents]
  rfl

/-! ## Trees without signs -/

theorem returns_single {limits : Limits} {n : Node} (hn : ∀ terms, n ≠ .sum terms)
    {answers : List Int} {e : Evaluation} (h : Returns (n.evaluate limits) answers e) :
    e.Single := by
  cases n with
  | constant value => exact returns_term (.constant value) h
  | pool count die modifiers =>
    obtain ⟨d, ms, first, rest, _, _, _, _, happly, hv⟩ := returns_evaluatePool h
    refine ⟨hv, applyAll_ungrouped happly ?_⟩
    simp [ungrouped_drawn]
  | sum terms => exact absurd rfl (hn terms)
  | stranger | die | modifier | bareRoll | bare => exact absurd h Draws.not_returns_fail

theorem evaluate_single (limits : Limits) (n : Node) (hn : ∀ terms, n ≠ .sum terms)
    {f : Evaluation → Evaluation} (hf : ∀ e : Evaluation, e.Single → f e = e) :
    n.evaluate limits = (n.evaluate limits).bind fun e => .done (f e) :=
  (Draws.bind_done_eq_self fun _ _ h => hf _ (returns_single hn h)).symm

mutual

/-- The same events, all of them with a plus, and their plain sum. -/
theorem evaluate_unsigned (limits : Limits) :
    (n : Node) → n.unsigned.evaluate limits = (n.evaluate limits).bind fun e => .done e.unsigned
  | .pool count die modifiers =>
    evaluate_single limits (.pool count die modifiers) (fun _ => nofun) fun _ => Single.unsigned
  | .sum terms => evaluateTerms_unsigned limits terms 0 ⟨0, []⟩
  | .constant value =>
    evaluate_single limits (.constant value) (fun _ => nofun) fun _ => Single.unsigned
  | .stranger _ => rfl
  | .die _ => rfl
  | .modifier _ => rfl
  | .bareRoll => rfl
  | .bare => rfl
termination_by structural n => n

theorem evaluateTerms_unsigned (limits : Limits) :
    (terms : List (Symbol Sign × Node)) → (number : Nat) → (sum : Evaluation) →
      Node.evaluateTerms limits number sum.unsigned (Node.unsignedTerms terms) =
        (Node.evaluateTerms limits number sum terms).bind fun e => .done e.unsigned
  | [], _, _ => rfl
  | (.unknown _, _) :: _, _, _ => rfl
  | (.known sign, n) :: terms, number, sum => by
    rw [Node.unsignedTerms, Node.plusFor, evaluateTerms_cons, evaluateTerms_cons,
      evaluate_unsigned limits n, Draws.bind_assoc, Draws.bind_assoc]
    refine congrArg _ (funext fun term => ?_)
    rw [Draws.done_bind, ← unsigned_addTerm number sign, evaluateTerms_unsigned limits terms]
termination_by structural terms => terms

end

/-! ## Trees without inner signs -/

theorem evaluateTerms_levelled (limits : Limits) (terms : List (Symbol Sign × Node)) (number : Nat)
    (sum : Evaluation) :
    Node.evaluateTerms limits number sum.recounted (terms.map fun t => (t.1, t.2.unsigned)) =
      (Node.evaluateTerms limits number sum terms).bind fun e => .done e.recounted := by
  induction terms generalizing number sum with
  | nil => rfl
  | cons t terms ih =>
    obtain ⟨symbol, n⟩ := t
    cases symbol with
    | unknown found => rfl
    | known sign =>
      rw [List.map_cons, evaluateTerms_cons, evaluateTerms_cons, evaluate_unsigned,
        Draws.bind_assoc, Draws.bind_assoc]
      refine congrArg _ (funext fun term => ?_)
      rw [Draws.done_bind, ← recounted_addTerm, ih]

/-- The same events, and their signed sum. -/
theorem evaluate_levelled (limits : Limits) (n : Node) :
    n.levelled.evaluate limits = (n.evaluate limits).bind fun e => .done e.recounted := by
  cases n with
  | pool count die modifiers =>
    exact evaluate_single limits (.pool count die modifiers) (fun _ => nofun)
      fun _ => Single.recounted
  | constant value =>
    exact evaluate_single limits (.constant value) (fun _ => nofun) fun _ => Single.recounted
  | sum terms => exact evaluateTerms_levelled limits terms 0 ⟨0, []⟩
  | stranger | die | modifier | bareRoll | bare => rfl

/-! ## What the events of a tree add up to -/

variable {σ : Type} [RandomSource σ]

/-- The signed sum of the kept events is the value of the tree with a plus for every inner sign,
which draws the same and has the same events. It is the value of the tree itself if none of its
inner sums subtracts. -/
theorem signedSum_eq_levelled (limits : Limits) (n : Node) (s : σ) {e : Evaluation}
    (h : ((n.evaluate limits).run s).result = .ok e) :
    let signed := ((e.events.filter Event.isKept).map Event.signedValue).sum
    let run := (n.levelled.evaluate limits).run s
    run.result = .ok ⟨signed, e.events⟩ ∧ run.requests = ((n.evaluate limits).run s).requests ∧
      (n.levelled = n → e.value = signed) := by
  intro signed run
  have hrun : run = ((n.evaluate limits).run s).map recounted := by
    rw [← Draws.run_map, ← evaluate_levelled]
  have hresult : run.result = .ok ⟨signed, e.events⟩ := by
    rw [hrun, Run.map, h]
    rfl
  refine ⟨hresult, by rw [hrun]; rfl, fun hn => ?_⟩
  have hsame : run.result = .ok e := by
    rw [← h]
    simp only [run, hn]
  have heq := Except.ok.inj (hsame.symm.trans hresult)
  exact congrArg Evaluation.value heq

/-- `10 - (d6 + 2)` -/
theorem signedSum_eq_levelled_inner_plus :
    let n : Node := .sum [(.known .plus, .constant 10),
      (.known .minus, .sum [(.known .plus, .pool 1 (.die (.fresh (.sided 6))) []),
        (.known .plus, .constant 2)])]
    let run := (n.evaluate .standard).run (Source.script [3] 0)
    n.levelled = n ∧ ∃ e, run.result = .ok e ∧ e.value = 5 ∧
      e.value = ((e.events.filter Event.isKept).map Event.signedValue).sum := by
  intro n run
  have hlevel : n.levelled = n := rfl
  refine ⟨hlevel, _, rfl, rfl, ?_⟩
  exact (signedSum_eq_levelled .standard n (Source.script [3] 0) rfl).2.2 hlevel

/-- `10 - (5 - 2)` is worth `7`, while its events count as `10`, `-5` and `-2`. -/
theorem value_ne_signedSum_inner_minus :
    let n : Node := .sum [(.known .plus, .constant 10),
      (.known .minus, .sum [(.known .plus, .constant 5), (.known .minus, .constant 2)])]
    ∃ e, ((n.evaluate .standard).run (Source.script [] 0)).result = .ok e ∧ e.value = 7 ∧
      ((e.events.filter Event.isKept).map Event.signedValue).sum = 3 :=
  ⟨_, rfl, rfl, rfl⟩

end Evaluation

end Dice
