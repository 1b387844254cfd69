import Dice.Proofs.Evaluation.Heredity
import Dice.Proofs.Evaluation.Phases
import Dice.Proofs.Notation.Printing

/-!
# Dice.Proofs.Evaluation.Safety

Rolls that are read from a text are evaluated without a failure of their own.

* `Node.Known` : trees in which every die, modifier and sign is known.
* `Node.dice` : the dice that stand in a tree.
* `confined_applyAll`, `confined_evaluatePool`, `confined_evaluateTerms` : what is requested and how
  it fails, from the parts to the whole.
* `within_evaluate` : the evaluation of a tree in which everything is known does not fail, and its
  requests are those of its dice.
* `read_evaluates` : every text that is read as a roll has a value, unless the source fails.
-/

namespace Dice

/-- Sums may hold sums. -/
inductive Node.Known : Node → Prop where
  | constant (value : Int) : Known (.constant value)
  | pool (count : Int) {kind : DieKind} {modifiers : List Modifier} : kind.range?.isSome →
      (∀ m ∈ modifiers, m.Known) →
      Known (.pool count (.die (.fresh kind)) (modifiers.map .modifier))
  | sum {terms : List (Symbol Sign × Node)} : (∀ t ∈ terms, ∃ sign, t.1 = .known sign) →
      (∀ t ∈ terms, t.2.Known) → Known (.sum terms)

namespace Node

mutual

/-- All dice that stand anywhere in a tree. -/
def dice : Node → List Die
  | .die d => [d]
  | .pool _ kind _ => kind.dice
  | .sum terms => diceTerms terms
  | .stranger _ | .modifier _ | .constant _ | .bareRoll | .bare => []
termination_by structural n => n

def diceTerms : List (Symbol Sign × Node) → List Die
  | [] => []
  | (_, n) :: terms => n.dice ++ diceTerms terms
termination_by structural terms => terms

end

theorem mem_diceTerms {terms : List (Symbol Sign × Node)} {d : Die} :
    d ∈ diceTerms terms ↔ ∃ t ∈ terms, d ∈ t.2.dice := by
  induction terms with
  | nil => simp [diceTerms]
  | cons t terms ih => simp [diceTerms, ih]

end Node

namespace Evaluation

open Draws (Returns)

variable {P : Request → Prop} {Q : RollError → Prop}

/-! ## Modifiers -/

theorem within_applyModifier (limits : Limits) {m : Modifier} (hk : m.Known) (pool : List Bool)
    {events : List Event} (he : ∀ e ∈ events, e.Faced P) :
    (applyModifier limits m pool events).Within P := by
  by_cases hm : m.phase = .generation
  · exact within_generation hm hk he
  · obtain ⟨after, hafter⟩ := applyModifier_done limits hm hk pool events
    rw [hafter]
    trivial

theorem confined_applyAll (limits : Limits) {modifiers : List Modifier}
    (h : ∀ m ∈ modifiers, ∀ pool events, (∀ e ∈ events, Event.Faced P e) →
      (applyModifier limits m pool events).Confined P Q)
    (pool : Option (List Bool)) {events : List Event} (he : ∀ e ∈ events, e.Faced P) :
    (applyAll limits modifiers pool events).Confined P Q := by
  induction modifiers generalizing pool events with
  | nil => trivial
  | cons m modifiers ih =>
    obtain ⟨hm, hrest⟩ := List.forall_mem_cons.mp h
    refine (hm _ _ he).bind fun _ _ hafter => ih hrest _ ?_
    exact (Event.hereditary_faced P).applyModifier hafter he

/-! ## Rolls -/

theorem faced_drawn {d : Die} (hd : d.Asks P) (origin : Origin) (values : List Int) :
    ∀ e ∈ values.map (Event.drawn d origin), e.Faced P := by
  intro e he
  obtain ⟨value, _, rfl⟩ := List.mem_map.mp he
  exact Event.IncomingFrom.faced ⟨origin, value, hd.isSome, .inl rfl⟩ hd

/-- A pool makes the requests of its die, and fails as its parts do. -/
theorem confined_evaluatePool (limits : Limits) (count : Int) {die : Node} {modifiers : List Node}
    (hnone : poolDie? die = none → Q (.unknownDie die))
    (hsome : ∀ d, poolDie? die = some d → d.Asks P)
    (hnodes : ∀ e, modifiersOf modifiers = .error e → Q e)
    (hmods : ∀ m, .modifier m ∈ modifiers → ∀ pool events, (∀ e ∈ events, Event.Faced P e) →
      (applyModifier limits m pool events).Confined P Q) :
    (evaluatePool limits count die modifiers).Confined P Q := by
  rw [evaluatePool]
  cases hdie : poolDie? die with
  | none => exact hnone hdie
  | some d =>
    have hd := hsome d hdie
    refine ((within_drawPool hd _ _).confined Q).bind fun answers events hdraw => ?_
    refine (Draws.confined_ofExcept hnodes).bind fun _ ms hms => ?_
    obtain ⟨_, hok⟩ := Draws.returns_ofExcept_iff.mp hms
    obtain ⟨rfl, _⟩ := returns_drawPool hdraw
    have hphased : ∀ m ∈ phased ms, ∀ pool events, (∀ e ∈ events, Event.Faced P e) →
        (applyModifier limits m pool events).Confined P Q :=
      fun m hm => hmods m ((mem_of_modifiersOf hok).mp (mem_phased hm))
    refine (confined_applyAll limits hphased none ?_).bind fun _ _ _ => trivial
    simpa using faced_drawn hd .initial answers

theorem confined_evaluateTerms (limits : Limits) {terms : List (Symbol Sign × Node)}
    (hsigns : ∀ t ∈ terms, ∀ found, t.1 = .unknown found → Q (.unknownSign found))
    (hterms : ∀ t ∈ terms, (t.2.evaluate limits).Confined P Q) (number : Nat) (sum : Evaluation) :
    (Node.evaluateTerms limits number sum terms).Confined P Q := by
  induction terms generalizing number sum with
  | nil => trivial
  | cons t terms ih =>
    obtain ⟨hsign, hlater⟩ := List.forall_mem_cons.mp hsigns
    obtain ⟨hterm, hrest⟩ := List.forall_mem_cons.mp hterms
    obtain ⟨symbol, n⟩ := t
    cases symbol with
    | unknown found => exact hsign found rfl
    | known sign => exact hterm.bind fun _ _ _ => ih hlater hrest _ _

theorem within_evaluate (limits : Limits) {n : Node} (h : n.Known)
    (hP : ∀ d ∈ n.dice, ∀ range, d.range? = some range → P range.request) :
    (n.evaluate limits).Within P := by
  rw [Draws.within_iff]
  induction h with
  | constant value => trivial
  | @pool count kind _ hkind hk =>
    have hdie : poolDie? (.die (.fresh kind)) = some (.fresh kind) := if_pos hkind
    obtain ⟨range, hr⟩ := Option.isSome_iff_exists.mp hkind
    have hd : (Die.fresh kind).Asks P := ⟨range, hr, hP _ (List.mem_singleton.mpr rfl) range hr⟩
    refine confined_evaluatePool limits count (fun hnone => ?_) (fun d hsome => ?_) (fun e he => ?_)
      (fun m hm pool events he => ?_)
    · exact nomatch hdie.symm.trans hnone
    · cases hdie.symm.trans hsome
      exact hd
    · exact nomatch (modifiersOf_map _).symm.trans he
    · obtain ⟨m', hm', hsame⟩ := List.mem_map.mp hm
      cases hsame
      exact Draws.within_iff.mp (within_applyModifier limits (hk m hm') pool he)
  | sum hsigns _ ih =>
    refine confined_evaluateTerms limits (fun t ht found hfound => ?_) (fun t ht => ?_) 0 ⟨0, []⟩
    · obtain ⟨sign, hsign⟩ := hsigns t ht
      exact nomatch hsign.symm.trans hfound
    · exact ih t ht fun d hd => hP d (Node.mem_diceTerms.mpr ⟨t, ht, hd⟩)

theorem faultless_evaluate (limits : Limits) {n : Node} (h : n.Known) :
    (n.evaluate limits).Faultless :=
  within_evaluate limits h fun _ _ _ _ => trivial

end Evaluation

namespace Notation

open Evaluation

/-! ## Rolls that are read -/

theorem known_of_diceValue {m : Modifier} (h : DiceValue m) : m.Known := by
  cases h with
  | keep => exact .keep _ _
  | drop => exact .drop _ _
  | onMatch r ht => exact .onMatch ht ⟨r, rfl⟩

theorem known_of_value {m : Modifier} (h : DiceValue m ∨ ConstantValue m) : m.Known := by
  rcases h with h | h
  · exact known_of_diceValue h
  · obtain ⟨s, _⟩ := h
    exact .adjust s _

theorem known_of_wellFormedDie {d : Die} (h : WellFormedDie d) :
    ∃ kind, d = .fresh kind ∧ kind.range?.isSome := by
  cases h with
  | sided => exact ⟨_, rfl, rfl⟩
  | percent => exact ⟨_, rfl, rfl⟩
  | fudge => exact ⟨_, rfl, rfl⟩

theorem known_of_wellFormedTerm {r : Node} (h : WellFormedTerm r) : r.Known := by
  cases h with
  | constant => exact .constant _
  | pool _ hd hms =>
    obtain ⟨kind, rfl, hkind⟩ := known_of_wellFormedDie hd
    exact .pool _ hkind fun m hm => known_of_diceValue (hms m hm)

theorem known_of_wellFormed {r : Node} (h : WellFormed r) : r.Known := by
  cases h with
  | term h => exact known_of_wellFormedTerm h
  | pool _ hd hms =>
    obtain ⟨kind, rfl, hkind⟩ := known_of_wellFormedDie hd
    exact .pool _ hkind fun m hm => known_of_value (hms m hm)
  | sum h _ hterms =>
    refine .sum ?_ ?_
    · refine List.forall_mem_cons.mpr ⟨⟨.plus, rfl⟩, ?_⟩
      intro t ht
      obtain ⟨term, _, rfl⟩ := List.mem_map.mp ht
      exact ⟨_, rfl⟩
    · exact fun t ht => known_of_wellFormedTerm (wellFormedTerm_of_mem h hterms t ht)

/-- The evaluation of a roll that is read from a text ends with a result, or with the failure of
the source at the last request that was made of it. -/
theorem read_evaluates {text : String} {r : Node} (h : Grammar.read text = .ok r) (limits : Limits)
    {σ : Type} [RandomSource σ] (s : σ) :
    (∃ e, ((r.evaluate limits).run s).result = .ok e) ∨
      ∃ answered last e, ((r.evaluate limits).run s).requests = answered ++ [last] ∧
        (RandomSource.next (Draws.sourceAfter s answered) last).1 = .error e ∧
        ((r.evaluate limits).run s).result = .error (.source e) :=
  (faultless_evaluate limits (known_of_wellFormed (wellFormed_of_read h))).run s

/-- The second die is compounded, but the script has no answer left for the third. -/
theorem read_evaluates_short_script :
    let r : Node := .sum [
      (.known .plus, .pool 2 (.die (.fresh (.sided 6)))
        [.modifier (.onMatch .compound ⟨.known .equal, 6⟩)]),
      (.known .plus, .constant 1)]
    let run := (r.evaluate .standard).run (Source.script [3, 6] 0)
    Grammar.read "2d6^=6+1" = .ok r ∧ ∃ answered last e, run.requests = answered ++ [last] ∧
      (RandomSource.next (Draws.sourceAfter (Source.script [3, 6] 0) answered) last).1 = .error e ∧
      run.result = .error (.source e) := by
  intro r run
  have hsix : Numeric 6 := ⟨by decide, by decide⟩
  have hone : Numeric 1 := ⟨by decide, by decide⟩
  have hms : ∀ m ∈ [Modifier.onMatch .compound ⟨.known .equal, 6⟩], DiceValue m :=
    List.forall_mem_singleton.mpr (.onMatch _ (by decide) hsix)
  have hterms : ∀ term ∈ [(Sign.plus, Node.constant 1)], WellFormedTerm term.2 :=
    List.forall_mem_singleton.mpr (.constant hone)
  have hwell : WellFormed r :=
    .sum (.pool ⟨by decide, by decide⟩ (.sided hsix) hms) (List.cons_ne_nil _ _) hterms
  obtain ⟨text, htext, hread⟩ := read_of_wellFormed hwell
  have hwritten : r.text? = some "2d6^=6+1" := rfl
  rw [hwritten] at htext
  cases htext
  have hrun : run.result = .error (.source (.exhausted 2)) := rfl
  refine ⟨hread, (read_evaluates hread .standard (Source.script [3, 6] 0)).resolve_left ?_⟩
  rintro ⟨e, he⟩
  exact nomatch hrun.symm.trans he

end Notation

end Dice
