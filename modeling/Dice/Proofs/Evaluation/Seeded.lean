import Dice.Proofs.Evaluation.Safety
import Dice.Proofs.Source.Ranged

/-!
# Dice.Proofs.Evaluation.Seeded

Evaluation on a source that answers every range within 64 bits, as a seeded one does.

* `Node.Oversized` : some die has more faces than a word of 64 bits with a sign can number.
* `run_of_oversized`, `run_of_not_oversized` : of the rolls that are read from texts these are the
  ones that cannot be evaluated on such a source.
-/

namespace Dice

variable {σ : Type} [RandomSource σ] {keeps : σ → Prop}

/-! ## Dice out of range -/

/-- The greatest face of some die does not fit into a word of 64 bits with a sign. -/
def Node.Oversized (n : Node) : Prop :=
  ∃ sides, Die.fresh (.sided sides) ∈ n.dice ∧ Source.halfRange ≤ sides

theorem rangeError?_sided {sides : Int} (hpos : 1 ≤ sides) :
    Source.rangeError? (Range.mk 1 sides).request =
      if Source.halfRange ≤ sides then some .highOutOfRange else none := by
  have hlow : ¬ (1 : Int) < -Source.halfRange := by decide
  have hempty : ¬ sides + 1 ≤ 1 := by omega
  rw [Range.request, Source.rangeError?, if_neg hlow]
  by_cases hsides : Source.halfRange ≤ sides
  · rw [if_pos (Int.lt_add_one_iff.mpr hsides), if_pos hsides]
  · rw [if_neg fun h => hsides (Int.lt_add_one_iff.mp h), if_neg hempty, if_neg hsides]

namespace Evaluation

/-- The first die of such a pool is out of range. -/
theorem run_pool_ne_ok (hranged : Ranged keeps) (limits : Limits) {count : Int} (hcount : 1 ≤ count)
    {d : Die} {modifiers : List Node} (h : (Node.pool count (.die d) modifiers).Oversized) {s : σ}
    (hs : keeps s) (e : Evaluation) :
    (((Node.pool count (.die d) modifiers).evaluate limits).run s).result ≠ .ok e := by
  obtain ⟨sides, hd, hsides⟩ := h
  cases List.mem_singleton.mp hd
  obtain ⟨more, hmore⟩ : ∃ more, count.toNat = more + 1 := ⟨count.toNat - 1, by omega⟩
  have hpos : 1 ≤ sides := Int.le_trans (by decide) hsides
  obtain ⟨_, hnext, _⟩ := hranged.refuses hs ((rangeError?_sided hpos).trans (if_pos hsides))
  have hpool : poolDie? (.die (.fresh (.sided sides))) = some (.fresh (.sided sides)) := rfl
  intro hok
  rw [Node.evaluate, evaluatePool, hpool, hmore] at hok
  cases (congrArg Run.result (Draws.run_draw_error hnext)).symm.trans hok

/-- A term that never comes to a value keeps a sum from it. -/
theorem run_evaluateTerms_ne_ok (hranged : Ranged keeps) (limits : Limits)
    {terms : List (Symbol Sign × Node)} {t : Symbol Sign × Node} (ht : t ∈ terms)
    (h : ∀ s, keeps s → ∀ e, ((t.2.evaluate limits).run s).result ≠ .ok e)
    (number : Nat) (sum : Evaluation) {s : σ} (hs : keeps s) (e : Evaluation) :
    ((Node.evaluateTerms limits number sum terms).run s).result ≠ .ok e := by
  induction terms generalizing number sum s with
  | nil => cases ht
  | cons first terms ih =>
    obtain ⟨symbol, n⟩ := first
    cases symbol with
    | unknown found => exact nofun
    | known sign =>
      intro hok
      rw [Node.evaluateTerms, Draws.run_bind] at hok
      obtain ⟨term, hterm, hrest⟩ := Run.exists_of_andThen_ok hok
      rcases List.mem_cons.mp ht with rfl | ht
      · exact h s hs term hterm
      · exact ih ht _ _ (hranged.run _ hs) hrest

end Evaluation

namespace Notation

open Evaluation

theorem dice_of_wellFormedTerm {r : Node} (h : WellFormedTerm r) :
    ∀ d ∈ r.dice, WellFormedDie d := by
  cases h with
  | constant => exact fun _ hd => absurd hd List.not_mem_nil
  | pool _ hd => exact List.forall_mem_singleton.mpr hd

theorem dice_of_wellFormed {r : Node} (h : WellFormed r) : ∀ d ∈ r.dice, WellFormedDie d := by
  cases h with
  | term h => exact dice_of_wellFormedTerm h
  | pool _ hd => exact List.forall_mem_singleton.mpr hd
  | sum h _ hterms =>
    intro d hd
    obtain ⟨t, ht, hd⟩ := Node.mem_diceTerms.mp hd
    exact dice_of_wellFormedTerm (wellFormedTerm_of_mem h hterms t ht) d hd

/-- The only fault of the range of a die that is read from a text is that it ends too high. -/
theorem rangeError?_of_wellFormedDie {d : Die} (h : WellFormedDie d) {range : Range}
    (hr : d.range? = some range) :
    Source.rangeError? range.request = none ∨
      Source.rangeError? range.request = some .highOutOfRange ∧
        ∃ sides, d = .fresh (.sided sides) ∧ Source.halfRange ≤ sides := by
  cases h with
  | @sided n hn =>
    obtain rfl : (⟨1, n⟩ : Range) = range := Option.some.inj hr
    obtain ⟨hpos, _⟩ := hn
    rw [rangeError?_sided hpos]
    by_cases hsides : Source.halfRange ≤ n
    · exact .inr ⟨if_pos hsides, n, rfl, hsides⟩
    · exact .inl (if_neg hsides)
  | percent =>
    obtain rfl := Option.some.inj hr
    exact .inl rfl
  | fudge =>
    obtain rfl := Option.some.inj hr
    exact .inl rfl

section

variable (hranged : Ranged keeps) (limits : Limits)

include hranged

theorem run_term_ne_ok {r : Node} (h : WellFormedTerm r) (hr : r.Oversized) {s : σ} (hs : keeps s)
    (e : Evaluation) :
    ((r.evaluate limits).run s).result ≠ .ok e := by
  cases h with
  | constant =>
    obtain ⟨_, hd, _⟩ := hr
    cases hd
  | pool hcount => exact run_pool_ne_ok hranged limits hcount.1 hr hs e

theorem run_ne_ok {r : Node} (h : WellFormed r) (hr : r.Oversized) {s : σ} (hs : keeps s)
    (e : Evaluation) : ((r.evaluate limits).run s).result ≠ .ok e := by
  cases h with
  | term h => exact run_term_ne_ok hranged limits h hr hs e
  | pool hcount => exact run_pool_ne_ok hranged limits hcount.1 hr hs e
  | sum h _ hterms =>
    obtain ⟨sides, hd, hsides⟩ := hr
    obtain ⟨t, ht, hd⟩ := Node.mem_diceTerms.mp hd
    refine run_evaluateTerms_ne_ok hranged limits ht (fun s hs => ?_) 0 ⟨0, []⟩ hs e
    have hterm := wellFormedTerm_of_mem h hterms t ht
    exact run_term_ne_ok hranged limits hterm ⟨sides, hd, hsides⟩ hs

theorem run_of_oversized {r : Node} (h : WellFormed r) (hr : r.Oversized) {s : σ} (hs : keeps s) :
    ((r.evaluate limits).run s).result = .error (.source .highOutOfRange) := by
  have hwithin : (r.evaluate limits).Within fun request =>
      ∀ e, Source.rangeError? request = some e → e = .highOutOfRange := by
    refine within_evaluate limits (known_of_wellFormed h) fun d hd range hrange e he => ?_
    rcases rangeError?_of_wellFormedDie (dice_of_wellFormed h d hd) hrange with hnone | ⟨hhigh, _⟩
    · exact nomatch hnone.symm.trans he
    · cases hhigh.symm.trans he
      rfl
  rcases hwithin.run_ranged hranged hs with ⟨e, he⟩ | ⟨request, e, honly, hrange, he⟩
  · exact absurd he (run_ne_ok hranged limits h hr hs e)
  · rw [he, honly e hrange]

theorem run_of_not_oversized {r : Node} (h : WellFormed r) (hr : ¬ r.Oversized) {s : σ}
    (hs : keeps s) : ∃ e, ((r.evaluate limits).run s).result = .ok e := by
  have hwithin : (r.evaluate limits).Within fun request => Source.rangeError? request = none := by
    refine within_evaluate limits (known_of_wellFormed h) fun d hd range hrange => ?_
    rcases rangeError?_of_wellFormedDie (dice_of_wellFormed h d hd) hrange with
      hnone | ⟨_, sides, rfl, hsides⟩
    · exact hnone
    · exact absurd ⟨sides, hd, hsides⟩ hr
  rcases hwithin.run_ranged hranged hs with hok | ⟨request, e, hnone, hrange, _⟩
  · exact hok
  · exact nomatch hnone.symm.trans hrange

end

end Notation

end Dice
