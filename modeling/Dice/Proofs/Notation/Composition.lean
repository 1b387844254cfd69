import Dice.Proofs.Notation.Readings

/-!
# Dice.Proofs.Notation.Composition

A plus between two texts adds the rolls that they are read as.

* `Node.modifiers`, `Node.terms` : the modifiers that stand in a tree, and the terms it adds up.
* `Event.ungroup`, `Evaluation.ungroup` : what is left of a term apart from its place in a sum.
* `evaluate_append` : the terms of two trees in one sum are evaluated as one tree after the other.
* `arithmetic_append` : a plus between two sums is a sum of the terms of both.
* `read_append` : so texts without constants as modifiers are read and evaluated in one another's
  company as they are alone.
-/

namespace Dice

namespace Node

mutual

/-- All modifiers that stand anywhere in a tree. -/
def modifiers : Node → List Modifier
  | .modifier m => [m]
  | .pool _ kind nodes => kind.modifiers ++ modifiersAll nodes
  | .sum terms => modifiersTerms terms
  | .stranger _ | .die _ | .constant _ | .bareRoll | .bare => []
termination_by structural n => n

def modifiersAll : List Node → List Modifier
  | [] => []
  | n :: nodes => n.modifiers ++ modifiersAll nodes
termination_by structural nodes => nodes

def modifiersTerms : List (Symbol Sign × Node) → List Modifier
  | [] => []
  | (_, n) :: terms => n.modifiers ++ modifiersTerms terms
termination_by structural terms => terms

end

theorem modifiersAll_map (ms : List Modifier) : modifiersAll (ms.map .modifier) = ms := by
  induction ms with
  | nil => rfl
  | cons m ms ih => rw [List.map_cons, modifiersAll, modifiers, ih, List.singleton_append]

/-- No modifier of the tree adds a constant. -/
def Unadjusted (n : Node) : Prop :=
  ∀ sign value, Modifier.adjust sign value ∉ n.modifiers

/-- A tree that is no sum is the only term of one. -/
def terms : Node → List (Symbol Sign × Node)
  | .sum terms => terms
  | n => [(.known .plus, n)]

end Node

/-! ## Terms of two trees -/

/-- The event as if it belonged to no term of a sum. -/
def Event.ungroup (e : Event) : Event :=
  { e with group := none, groupSign := none }

namespace Evaluation

open Draws (Returns)

variable {α : Type}

def ungroup (e : Evaluation) : Evaluation :=
  ⟨e.value, e.events.map Event.ungroup⟩

/-- One evaluation behind another. -/
def append (e e' : Evaluation) : Evaluation :=
  ⟨e.value + e'.value, e.events ++ e'.events⟩

theorem append_assoc (e e' e'' : Evaluation) :
    (e.append e').append e'' = e.append (e'.append e'') := by
  simp [append, Int.add_assoc]

theorem ungroup_inGroup (number : Nat) (sign : Sign) (events : List Event) :
    (events.map (inGroup number sign)).map Event.ungroup = events.map Event.ungroup := by
  rw [List.map_map]
  rfl

theorem evaluateTerms_append (limits : Limits) (number : Nat) (sum : Evaluation)
    (terms terms' : List (Symbol Sign × Node)) :
    Node.evaluateTerms limits number sum (terms ++ terms') =
      (Node.evaluateTerms limits number sum terms).bind fun e =>
        Node.evaluateTerms limits (number + terms.length) e terms' := by
  induction terms generalizing number sum with
  | nil => rfl
  | cons t terms ih =>
    obtain ⟨symbol, n⟩ := t
    cases symbol with
    | unknown found => rfl
    | known sign =>
      simp only [List.cons_append, Node.evaluateTerms, Draws.bind_assoc, ih, List.length_cons]
      simp only [Nat.add_assoc, Nat.add_comm 1]

/-- Apart from the groups it does not matter where in a sum its last terms stand, nor what the
terms before them are. -/
theorem evaluateTerms_from (limits : Limits) (number : Nat) (sum : Evaluation)
    (terms : List (Symbol Sign × Node)) (f : Evaluation → Draws α) :
    (Node.evaluateTerms limits number sum terms).bind (fun e => f e.ungroup) =
      (Node.evaluateTerms limits 0 ⟨0, []⟩ terms).bind fun e =>
        f (sum.ungroup.append e.ungroup) := by
  induction terms generalizing number sum f with
  | nil => simp [Node.evaluateTerms, ungroup, append]
  | cons t terms ih =>
    obtain ⟨symbol, n⟩ := t
    cases symbol with
    | unknown found => rfl
    | known sign =>
      simp only [Node.evaluateTerms, Draws.bind_assoc]
      refine congrArg _ (funext fun term => ?_)
      rw [ih, ih _ _ fun e => f (sum.ungroup.append e)]
      simp only [← append_assoc]
      simp [ungroup, append, ungroup_inGroup, -List.map_map]

theorem evaluateTerms_terms (limits : Limits) (n : Node) (f : Evaluation → Draws α) :
    (Node.evaluateTerms limits 0 ⟨0, []⟩ n.terms).bind (fun e => f e.ungroup) =
      (n.evaluate limits).bind fun e => f e.ungroup := by
  cases n with
  | sum terms => rfl
  | _ =>
    simp only [Node.terms, Node.evaluateTerms, Draws.bind_assoc, Draws.done_bind]
    refine congrArg _ (funext fun e => ?_)
    simp [ungroup, Sign.apply, Sign.factor, ungroup_inGroup, -List.map_map]

/-- The terms of two trees in one sum. -/
theorem evaluate_append (limits : Limits) (n n' : Node) :
    ((Node.sum (n.terms ++ n'.terms)).evaluate limits).bind (fun e => .done e.ungroup) =
      (n.evaluate limits).bind fun e =>
        (n'.evaluate limits).bind fun e' => .done (e.ungroup.append e'.ungroup) := by
  rw [Node.evaluate, evaluateTerms_append, Draws.bind_assoc]
  calc (Node.evaluateTerms limits 0 ⟨0, []⟩ n.terms).bind (fun e =>
        (Node.evaluateTerms limits (0 + n.terms.length) e n'.terms).bind fun e => .done e.ungroup)
      = (Node.evaluateTerms limits 0 ⟨0, []⟩ n.terms).bind fun e =>
          (n'.evaluate limits).bind fun e' => .done (e.ungroup.append e'.ungroup) := by
        refine congrArg _ (funext fun e => ?_)
        rw [evaluateTerms_from limits _ e n'.terms Draws.done]
        exact evaluateTerms_terms limits n' fun e' => .done (e.ungroup.append e')
    _ = _ := evaluateTerms_terms limits n fun e =>
        (n'.evaluate limits).bind fun e' => .done (e.append e'.ungroup)

theorem returns_append {limits : Limits} {n n' : Node} {answers answers' : List Int}
    {e e' : Evaluation} (h : Returns (n.evaluate limits) answers e)
    (h' : Returns (n'.evaluate limits) answers' e') :
    ∃ both, Returns ((Node.sum (n.terms ++ n'.terms)).evaluate limits) (answers ++ answers') both ∧
      both.ungroup = e.ungroup.append e'.ungroup := by
  have hboth : Returns ((n.evaluate limits).bind fun e =>
      (n'.evaluate limits).bind fun e' => .done (e.ungroup.append e'.ungroup))
      (answers ++ (answers' ++ [])) (e.ungroup.append e'.ungroup) :=
    h.bind (h'.bind .done)
  rw [← evaluate_append, List.append_nil] at hboth
  obtain ⟨first, both, rest, hanswers, hsum, hdone⟩ := Draws.returns_bind_iff.mp hboth
  obtain ⟨rfl, hungroup⟩ := Draws.returns_done_iff.mp hdone
  rw [hanswers, List.append_nil]
  exact ⟨both, hsum, hungroup.symm⟩

end Evaluation

namespace Draws

/-- A script that is used up by a run that succeeds holds the answers that lead to its result. -/
theorem returns_of_used_up {α : Type} {p : Draws α} (used : List Int) {values : List Int} {a : α}
    (h : (p.run (Source.script (used ++ values) used.length)).result = .ok a)
    (hused : (p.run (Source.script (used ++ values) used.length)).source.remaining? = some 0) :
    Returns p values a := by
  induction p generalizing used values with
  | done b =>
    cases h
    have hnone : values = [] := by simpa [run_done, Source.remaining?] using hused
    exact hnone ▸ .done
  | fail e => cases h
  | warn w p ih =>
    rw [run_warn] at h hused
    exact .warn (ih used h hused)
  | draw r next ih =>
    cases values with
    | nil =>
      rw [List.append_nil, run_draw_error (next_script_end used r)] at h
      cases h
    | cons value values =>
      have hget : (used ++ value :: values)[used.length]? = some value := by simp
      rw [run_draw_ok (next_script hget r)] at h hused
      refine .draw (ih value (used ++ [value]) ?_ ?_)
      · simpa [Run.after] using h
      · simpa [Run.after] using hused

end Draws

namespace Notation

open Dice.Parser (Repeated Spaced)
open Evaluation

/-! ## Terms of two texts -/

theorem Arithmetic.exists_terms {cs : List Char} {r : Node} (h : Arithmetic cs r) :
    ∃ u v first rest, cs = u ++ v ∧ Term u first ∧ Repeated (SignedTerm TermWord) v rest ∧
      r.terms = (.known .plus, first) :: rest.map fun term => (.known term.1, term.2) := by
  cases h with
  | single h =>
    refine ⟨cs, [], r, [], by simp, h, .nil, ?_⟩
    obtain ⟨_, hword, _⟩ := h
    -- a term is no sum
    cases wellFormedTerm_of_word hword <;> rfl
  | sum h hterms _ => exact ⟨_, _, _, _, rfl, h, hterms, rfl⟩

theorem arithmetic_append {cs cs' : List Char} {r r' : Node} (h : Arithmetic cs r)
    (h' : Arithmetic cs' r') : Arithmetic (cs ++ '+' :: cs') (.sum (r.terms ++ r'.terms)) := by
  obtain ⟨u, v, first, rest, rfl, hfirst, hrest, hterms⟩ := h.exists_terms
  obtain ⟨u', v', first', rest', rfl, hfirst', hrest', hterms'⟩ := h'.exists_terms
  have hplus : SignWord ['+'] .plus := rfl
  have hseam := Repeated.cons (SignedTerm.intro (Spaced.self hplus) hfirst') hrest'
  have hsum := Arithmetic.sum hfirst (hrest.append hseam) (by simp)
  simpa [hterms, hterms'] using hsum

/-- Only a constant among the modifiers keeps a text from being read as a sum. -/
theorem arithmetic_of_read {text : String} {r : Node} (h : Grammar.read text = .ok r)
    (hr : r.Unadjusted) : Arithmetic text.toList r := by
  rcases denotes_of_read h with h | ⟨hnot, ⟨hpool⟩⟩
  · exact h
  rename_i p
  have hmodifiers : p.node.modifiers = p.modifiers := by
    rw [Pool.node, Node.modifiers, Node.modifiers, Node.modifiersAll_map, List.nil_append]
  refine absurd ⟨_, arithmetic_of_dice hpool ?_⟩ hnot
  intro m hm
  rcases value_of_pool hpool m hm with hdice | hconstant
  · exact hdice
  · obtain ⟨sign, _⟩ := hconstant
    exact absurd (hmodifiers ▸ hm) (hr _ _)

/-- Two texts that hold no constants as modifiers are read with a plus between them as the sum of
their terms. Where each of them is worth something on draws that it uses up, the sum is worth both
values on the draws of the first and then of the second, and uses them up too; but for their groups
its events are those of the first and then those of the second. -/
theorem read_append {a b : String} {r r' : Node} (ha : Grammar.read a = .ok r)
    (hb : Grammar.read b = .ok r') (hr : r.Unadjusted) (hr' : r'.Unadjusted) :
    Grammar.read (a ++ "+" ++ b) = .ok (.sum (r.terms ++ r'.terms)) ∧
      ∀ (limits : Limits) (draws draws' : List Int) (e e' : Evaluation),
        let run := (r.evaluate limits).run (Source.ofValues draws)
        let run' := (r'.evaluate limits).run (Source.ofValues draws')
        let both := ((Node.sum (r.terms ++ r'.terms)).evaluate limits).run
          (Source.ofValues (draws ++ draws'))
        run.result = .ok e → run.source.remaining? = some 0 →
          run'.result = .ok e' → run'.source.remaining? = some 0 →
            both.source.remaining? = some 0 ∧ ∃ sum, both.result = .ok sum ∧
              sum.value = e.value + e'.value ∧
              sum.events.map Event.ungroup = (e.events ++ e'.events).map Event.ungroup := by
  constructor
  · have hsum := arithmetic_append (arithmetic_of_read ha hr) (arithmetic_of_read hb hr')
    have htext : (a ++ "+" ++ b).toList = a.toList ++ '+' :: b.toList := by simp
    rw [← htext] at hsum
    exact read_of_takes (takes_roll_arithmetic (takes_complete (takes_arithmeticRoll hsum)))
  · intro limits draws draws' e e' run run' both h hused h' hused'
    have hreturns : Draws.Returns (r.evaluate limits) draws e :=
      Draws.returns_of_used_up [] h hused
    have hreturns' : Draws.Returns (r'.evaluate limits) draws' e' :=
      Draws.returns_of_used_up [] h' hused'
    obtain ⟨sum, hsum, hungroup⟩ := returns_append hreturns hreturns'
    obtain ⟨hresult, hsource⟩ := Draws.run_script hsum [] []
    simp only [List.nil_append, List.append_nil, List.length_nil, Nat.zero_add] at hresult hsource
    obtain ⟨hvalue, hevents⟩ := Evaluation.mk.inj hungroup
    refine ⟨?_, sum, hresult, hvalue, ?_⟩
    · have hleft : both.source = .script (draws ++ draws') (draws ++ draws').length := hsource
      rw [hleft, Source.remaining?, Nat.sub_self]
    · rw [hevents, List.map_append]
      rfl

/-- An exploding die, and two dice with a constant behind them. -/
theorem read_append_exploded :
    let d : Node := .die (.fresh (.sided 6))
    let r : Node := .pool 1 d [.modifier (.onMatch .explode ⟨.known .equal, 6⟩)]
    let r' : Node := .sum [(.known .plus, .pool 2 d []), (.known .minus, .constant 1)]
    let sum : Node := .sum (r.terms ++ r'.terms)
    let both := (sum.evaluate .standard).run (Source.ofValues [6, 3, 2, 5])
    Grammar.read "1d6!=6" = .ok r ∧ Grammar.read "2d6-1" = .ok r' ∧
      Grammar.read "1d6!=6+2d6-1" = .ok sum ∧ both.result.map Evaluation.value = .ok 15 ∧
      both.source.remaining? = some 0 := by
  intro d r r' sum both
  have hone : Numeric 1 := ⟨by decide, by decide⟩
  have htwo : Numeric 2 := ⟨by decide, by decide⟩
  have hsix : Numeric 6 := ⟨by decide, by decide⟩
  have hexplode : ∀ m ∈ [Modifier.onMatch .explode ⟨.known .equal, 6⟩], DiceValue m :=
    List.forall_mem_singleton.mpr (.onMatch _ (by decide) hsix)
  have hwell : WellFormed r := .term (.pool hone (.sided hsix) hexplode)
  have hterms : ∀ term ∈ [(Sign.minus, Node.constant 1)], WellFormedTerm term.2 :=
    List.forall_mem_singleton.mpr (.constant hone)
  have hpair : WellFormedTerm (.pool 2 d (([] : List Modifier).map .modifier)) :=
    .pool htwo (.sided hsix) (by simp)
  have hwell' : WellFormed r' := .sum hpair (List.cons_ne_nil _ _) hterms
  have hread : Grammar.read "1d6!=6" = .ok r := read_of_text hwell rfl
  have hread' : Grammar.read "2d6-1" = .ok r' := read_of_text hwell' rfl
  have hr : r.Unadjusted := by simp [Node.Unadjusted, Node.modifiers, Node.modifiersAll, r, d]
  have hr' : r'.Unadjusted := by
    simp [Node.Unadjusted, Node.modifiers, Node.modifiersAll, Node.modifiersTerms, r', d]
  obtain ⟨hseam, hboth⟩ := read_append hread hread' hr hr'
  obtain ⟨hused, total, htotal, hvalue, _⟩ := hboth .standard [6, 3] [2, 5] _ _ rfl rfl rfl rfl
  refine ⟨hread, hread', hseam, ?_, hused⟩
  have hresult : both.result = .ok total := htotal
  rw [hresult, Except.map, hvalue]
  rfl

end Notation

end Dice
