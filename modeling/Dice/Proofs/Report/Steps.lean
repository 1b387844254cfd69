import Dice.Proofs.Evaluation.LifeCycle
import Dice.Proofs.Evaluation.Replay
import Dice.Proofs.Evaluation.Terms
import Dice.Proofs.Report.Display

/-!
# Dice.Proofs.Report.Steps

The steps of a roll that was read.

* `Node.Occupied` : constants that are not negative, and pools that are not empty.
* `exists_head_applyAll` : the first die of a pool stays in front of all other events.
* `OfTerm.showable` : so every term can be told from its text, with its sign.
* `steps_lose_nothing` : the same steps show the same terms, with the same values and marks.
-/

namespace Dice

/-- Constants have no sign of their own, and there are dice in every pool. -/
inductive Node.Occupied : Node → Prop where
  | constant {value : Int} : 0 ≤ value → Occupied (.constant value)
  | pool {count : Int} (die : Node) (modifiers : List Node) : 0 < count →
      Occupied (.pool count die modifiers)

namespace Evaluation

open Draws (Returns)
open Report (Showable shownSign)

/-! ## The first event of a term -/

theorem Grows.exists_head {e : Event} {events after : List Event} {answers : List Int}
    (h : Grows (e :: events) answers after) :
    ∃ first later, after = first :: later ∧ first.die = e.die := by
  obtain ⟨old, new, rfl, hold, _, _⟩ := h.grown
  obtain ⟨first, rest, rfl, hfirst, _⟩ := List.map_eq_cons_iff.mp hold
  exact ⟨first, rest ++ new, rfl, (congrArg Event.die hfirst : first.bare.die = e.bare.die)⟩

theorem exists_head_applyAll {limits : Limits} {modifiers : List Modifier}
    {pool : Option (List Bool)} {e : Event} {events after : List Event} {answers : List Int}
    (h : Returns (applyAll limits modifiers pool (e :: events)) answers after) :
    ∃ first later, after = first :: later ∧ first.die = e.die := by
  induction modifiers generalizing e events pool answers with
  | nil =>
    obtain ⟨_, rfl⟩ := Draws.returns_done_iff.mp h
    exact ⟨e, events, rfl, rfl⟩
  | cons m modifiers ih =>
    obtain ⟨_, mid, _, _, hm, hrest⟩ := Draws.returns_bind_iff.mp h
    obtain ⟨first, later, rfl, hdie⟩ := (applyModifier_grows hm).exists_head
    obtain ⟨first', later', hafter, hdie'⟩ := ih hrest
    exact ⟨first', later', hafter, hdie'.trans hdie⟩

theorem isConstant_of_isDie {e : Event} (h : e.isDie = true) : e.isConstant = false :=
  Bool.eq_false_iff.mpr fun hc => Event.not_isSummary_of_isDie h (.inl hc)

theorem Node.Occupied.showable {limits : Limits} {n : Node} (hn : n.Occupied) {answers : List Int}
    {part : Evaluation} (h : Returns (n.evaluate limits) answers part) : Showable part.events := by
  cases hn with
  | constant hv =>
    obtain ⟨_, rfl⟩ := Draws.returns_done_iff.mp h
    exact .constant rfl hv rfl
  | pool die modifiers hcount =>
    obtain ⟨d, ms, drawn, rest, hd, _, _, hlen, happly, _⟩ := returns_evaluatePool h
    cases drawn with
    | nil => simp at hlen; omega
    | cons value drawn =>
      obtain ⟨first, later, hafter, hdie⟩ := exists_head_applyAll happly
      have hfirst : first.isDie = true := by
        rw [Event.isDie, hdie]
        exact isDie_drawn (isSome_range_of_poolDie? hd) .initial value
      rw [hafter]
      exact .dice later (isConstant_of_isDie hfirst)

theorem showable_inGroup {events : List Event} (h : Showable events) (number : Nat) (sign : Sign) :
    Showable (events.map (Evaluation.inGroup number sign)) := by
  cases h with
  | constant hc hv hm => exact .constant hc hv hm
  | dice events hd => exact .dice _ hd

theorem shownSign_inGroup {events : List Event} (hne : events ≠ []) (number : Nat) (sign : Sign) :
    shownSign (events.map (inGroup number sign)) = sign := by
  obtain ⟨e, events, rfl⟩ := List.exists_cons_of_ne_nil hne
  cases sign <;> rfl

theorem shownSign_of_ungrouped {events : List Event} (h : ∀ e ∈ events, e.Ungrouped) :
    shownSign events = .plus := by
  cases events with
  | nil => rfl
  | cons e events => simp [shownSign, groupSign?, (h e List.mem_cons_self).2]

/-- A term is shown as what it is, with its sign. -/
theorem OfTerm.showable {limits : Limits} {t : Symbol Sign × Node} {events : List Event}
    (h : OfTerm limits t events) (ht : t.2.Occupied) (hterm : t.2.IsTerm) :
    Showable events ∧ t.1 = .known (shownSign events) := by
  cases h with
  | alone hreturns =>
    obtain ⟨_, hungrouped⟩ := returns_term hterm hreturns
    exact ⟨Node.Occupied.showable ht hreturns, by rw [shownSign_of_ungrouped hungrouped]⟩
  | inSum number hreturns =>
    have hshow := Node.Occupied.showable ht hreturns
    exact ⟨showable_inGroup hshow number _, by rw [shownSign_inGroup hshow.ne_nil]⟩

end Evaluation

namespace Notation

open Evaluation
open Report (Showable shownSign)

theorem occupied_of_wellFormedTerm {r : Node} (h : WellFormedTerm r) : r.Occupied := by
  cases h with
  | constant hn => exact .constant (Int.le_trans (by decide) hn.1)
  | pool hn _ _ => exact .pool _ _ hn.1

theorem occupied_of_wellFormed {r : Node} (h : WellFormed r) : ∀ t ∈ r.terms, t.2.Occupied := by
  cases h with
  | term h =>
    have halone : r.terms = [(.known .plus, r)] := by cases h <;> rfl
    rw [halone]
    exact List.forall_mem_singleton.mpr (occupied_of_wellFormedTerm h)
  | pool hn _ _ _ => exact List.forall_mem_singleton.mpr (.pool _ _ hn.1)
  | sum h _ hterms => exact fun t ht => occupied_of_wellFormedTerm (wellFormedTerm_of_mem h hterms t ht)

variable {σ : Type} [RandomSource σ] {limits : Limits} {s : σ} {r : Node} {e : Evaluation}

theorem map_eq_map_of_forall₂ {α β γ : Type} {f : α → γ} {g : β → γ} {as : List α} {bs : List β}
    (h : List.Forall₂ (fun a b => f a = g b) as bs) : as.map f = bs.map g := by
  have hmap : List.Forall₂ (· = ·) (as.map f) (bs.map g) := by
    rwa [List.forall₂_map_left_iff, List.forall₂_map_right_iff]
  rwa [List.forall₂_eq_eq_eq] at hmap

/-- One group for every term, each with its sign. -/
theorem shown_of_wellFormed (hr : WellFormed r) (h : ((r.evaluate limits).run s).result = .ok e) :
    groups e.events = r.termEvents e.events ∧ (∀ events ∈ groups e.events, Showable events) ∧
      r.terms.map Prod.fst = (groups e.events).map fun events => .known (shownSign events) := by
  have hflat := isFlat_of_wellFormed hr
  obtain ⟨_, hterms, hgroups⟩ := ofTerm_termEvents hflat (Draws.returns_answersTo h).1
  have hshow {t : Symbol Sign × Node} {events : List Event} (ht : t ∈ r.terms)
      (hof : OfTerm limits t events) : Showable events ∧ t.1 = .known (shownSign events) :=
    hof.showable (occupied_of_wellFormed hr t ht) (isTerm_of_mem_terms hflat t ht)
  have hshowable : ∀ events ∈ r.termEvents e.events, Showable events := by
    intro events he
    obtain ⟨t, ht, hof⟩ := exists_ofTerm hterms he
    exact (hshow ht hof).1
  rw [hgroups fun events he => (hshowable events he).ne_nil]
  refine ⟨rfl, hshowable, map_eq_map_of_forall₂ ?_⟩
  have hall := (List.forall₂_and_left _ _).mpr ⟨fun _ ht => ht, hterms⟩
  exact hall.imp fun t events ⟨ht, hof⟩ => (hshow ht hof).2

/-- The steps of a roll that was read show one group for every term, in order. Two rolls with the
same steps, whatever texts, limits and sources they come from, have as many terms with the same
signs, and as many events in each of them, one by one with the same value and the same marks. -/
theorem steps_lose_nothing {σ' : Type} [RandomSource σ'] {limits' : Limits} {s' : σ'} {r' : Node}
    {e' : Evaluation} {text text' : String} (hr : Grammar.read text = .ok r)
    (hr' : Grammar.read text' = .ok r') (h : ((r.evaluate limits).run s).result = .ok e)
    (h' : ((r'.evaluate limits').run s').result = .ok e') :
    groups e.events = r.termEvents e.events ∧ (groups e.events).length = r.terms.length ∧
      (stepsText e.events = stepsText e'.events →
        r.terms.map Prod.fst = r'.terms.map Prod.fst ∧
          List.Forall₂ (List.Forall₂ Event.Alike) (r.termEvents e.events)
            (r'.termEvents e'.events)) := by
  obtain ⟨hgroups, hshow, hsigns⟩ := shown_of_wellFormed (wellFormed_of_read hr) h
  obtain ⟨hgroups', hshow', hsigns'⟩ := shown_of_wellFormed (wellFormed_of_read hr') h'
  refine ⟨hgroups, by simpa using (congrArg List.length hsigns).symm, fun hsteps => ?_⟩
  have hall := Report.alike_of_stepsFrom hshow hshow' (congrArg String.toList hsteps)
  constructor
  · rw [hsigns, hsigns']
    exact map_eq_map_of_forall₂ (hall.imp fun _ _ h => congrArg Symbol.known h.1)
  · rw [← hgroups, ← hgroups']
    exact hall.imp fun _ _ h => h.2

/-- A die rerolled once, and another one rerolled as long as it shows a one. -/
theorem steps_lose_nothing_rerolled :
    let r : Node := .sum [
      (.known .plus, .pool 2 (.die (.fresh (.sided 6)))
        [.modifier (.onMatch .rerollOnce ⟨.known .equal, 1⟩)]),
      (.known .minus, .constant 3)]
    let r' : Node := .sum [
      (.known .plus, .pool 2 (.die (.fresh .percent))
        [.modifier (.onMatch .rerollWhile ⟨.known .less, 2⟩)]),
      (.known .minus, .constant 3)]
    Grammar.read "2d6ro=1-3" = .ok r ∧ Grammar.read "2d%rc<2-3" = .ok r' ∧ ∃ e e',
      ((r.evaluate .standard).run (Source.ofValues [1, 4, 6])).result = .ok e ∧
      ((r'.evaluate ⟨7, 7⟩).run (Source.ofValues [1, 4, 6])).result = .ok e' ∧
      stepsText e.events = "(1r, 4, 6) - 3" ∧ stepsText e'.events = "(1r, 4, 6) - 3" ∧
      (groups e.events).length = 2 ∧ e.events ≠ e'.events ∧
      List.Forall₂ (List.Forall₂ Event.Alike) (r.termEvents e.events) (r'.termEvents e'.events) := by
  intro r r'
  have hone : Numeric 1 := ⟨by decide, by decide⟩
  have htwo : Numeric 2 := ⟨by decide, by decide⟩
  have hterms : ∀ term ∈ [(Sign.minus, Node.constant 3)], WellFormedTerm term.2 :=
    List.forall_mem_singleton.mpr (.constant ⟨by decide, by decide⟩)
  have honce : ∀ m ∈ [Modifier.onMatch .rerollOnce ⟨.known .equal, 1⟩], DiceValue m :=
    List.forall_mem_singleton.mpr (.onMatch _ (by decide) hone)
  have hwhile : ∀ m ∈ [Modifier.onMatch .rerollWhile ⟨.known .less, 2⟩], DiceValue m :=
    List.forall_mem_singleton.mpr (.onMatch _ (by decide) htwo)
  have hwell : WellFormed r :=
    .sum (.pool htwo (.sided ⟨by decide, by decide⟩) honce) (List.cons_ne_nil _ _) hterms
  have hwell' : WellFormed r' := .sum (.pool htwo .percent hwhile) (List.cons_ne_nil _ _) hterms
  have hread : Grammar.read "2d6ro=1-3" = .ok r := read_of_text hwell rfl
  have hread' : Grammar.read "2d%rc<2-3" = .ok r' := read_of_text hwell' rfl
  have he : ((r.evaluate .standard).run (Source.ofValues [1, 4, 6])).result = .ok _ := rfl
  have he' : ((r'.evaluate ⟨7, 7⟩).run (Source.ofValues [1, 4, 6])).result = .ok _ := rfl
  obtain ⟨_, hlength, halike⟩ := steps_lose_nothing hread hread' he he'
  refine ⟨hread, hread', _, _, he, he', by decide +kernel, by decide +kernel, hlength,
    by decide +kernel, (halike (by decide +kernel)).2⟩

end Notation

end Dice
