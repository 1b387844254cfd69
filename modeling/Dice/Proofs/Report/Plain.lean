import Dice.Proofs.Evaluation.Uncounted
import Dice.Proofs.Report.Display

/-!
# Dice.Proofs.Report.Plain

Which events are shown as plain numbers.

* `Event.IsPlain` : an event shown without a mark for dice that were replaced, dropped, or counted
  as a success.
* `Event.Accounted counted` : what a status and a mark tell of an event, given whether anything was
  counted.
* `Accounts` : this for all events of a pool; every modifier keeps it up.
* `KeptBefore` : dice that are plain after the last phase were kept before it.
* `plain_kept_or_counted` : a plain event is kept, or a count of its term stands for it.
-/

namespace Dice

/-- Around the number there is no mark but that of an explosion. -/
def Event.IsPlain (e : Event) : Prop :=
  ∀ c ∈ e.chars, c ≠ 'r' ∧ c ≠ '~' ∧ c ≠ '*'

/-- Dice are discarded in many ways, but other events only by a count, and only counts mark. A count
itself always stands. -/
structure Event.Accounted (counted : Prop) (e : Event) : Prop where
  sort : e.isDie = true ∨ e.IsSummary
  tally : e.isTally = true → e.isKept = true
  discarded : e.isDiscarded = true → e.isDie = true ∨ counted
  mark : e.mark ≠ .neutral → counted

namespace Event

variable {counted counted' : Prop} {e : Event}

namespace Accounted

theorem mono (h : e.Accounted counted) (hc : counted → counted') : e.Accounted counted' :=
  ⟨h.sort, h.tally, fun hd => (h.discarded hd).imp id hc, fun hm => hc (h.mark hm)⟩

/-- Whatever becomes of a die, only its mark needs a count. -/
theorem of_isDie (hd : e.isDie = true) (hm : e.mark ≠ .neutral → counted) : e.Accounted counted where
  sort := .inl hd
  tally ht := absurd (.inr ht) (not_isSummary_of_isDie hd)
  discarded _ := .inl hd
  mark := hm

theorem of_summary {kind : DieKind} (hk : kind = .constant ∨ kind = .tally) (value : Int) :
    (Event.summary kind value).Accounted counted where
  sort := by
    rcases hk with rfl | rfl
    · exact .inr (.inl rfl)
    · exact .inr (.inr rfl)
  tally _ := rfl
  discarded hd := by cases hd
  mark hm := absurd rfl hm

theorem of_incoming (h : e.Incoming) : e.Accounted counted := by
  refine .of_isDie ?_ fun hm => absurd h.mark hm
  obtain ⟨d, origin, value, hd, rfl | rfl⟩ := h <;> exact Evaluation.isDie_drawn hd origin value

theorem spent {e' : Event} (h : e.Accounted counted) (hs : Evaluation.Spent e e') :
    e'.Accounted counted := by
  rcases hs with rfl | ⟨hlive, rfl⟩
  · exact h
  · have hdie : e.isDie = true := Evaluation.Event.isDie_of_isLive hlive
    exact .of_isDie hdie h.mark

/-- A count discards what was kept, but no count before it. -/
theorem collapse (h : e.Accounted counted) : (Evaluation.collapse e).Accounted True := by
  unfold Evaluation.collapse
  split
  · rename_i hkept
    simp only [Bool.and_eq_true, Bool.not_eq_true'] at hkept
    refine ⟨h.sort, fun ht => ?_, fun _ => .inr trivial, fun _ => trivial⟩
    have hsame : e.discard.isTally = e.isTally := rfl
    rw [hsame, hkept.2] at ht
    cases ht
  · exact h.mono fun _ => trivial

theorem marked (h : e.Accounted counted) (m : Mark) : ({ e with mark := m } : Event).Accounted True :=
  ⟨h.sort, h.tally, fun _ => .inr trivial, fun _ => trivial⟩

end Accounted

end Event

namespace Evaluation

open Draws (Returns)

/-! ## One modifier after another -/

def Counted (events : List Event) : Prop :=
  ∃ t ∈ events, t.isTally = true

def Accounts (events : List Event) : Prop :=
  ∀ e ∈ events, e.Accounted (Counted events)

variable {limits : Limits} {before after : List Event} {pool : List Bool} {answers : List Int}

/-- The counts before stay in their places. -/
theorem Grows.counted (h : Grows before answers after) (hc : Counted before) : Counted after := by
  obtain ⟨old, new, rfl, hold, _, _⟩ := h.grown
  obtain ⟨t, ht, htally⟩ := hc
  obtain ⟨t', ht', hbare⟩ := List.mem_map.mp (hold ▸ List.mem_map_of_mem ht : t.bare ∈ old.map _)
  have hdie : t'.die = t.die := (congrArg Event.die hbare : t'.bare.die = t.bare.die)
  exact ⟨t', List.mem_append_left _ ht', by rwa [Event.isTally, hdie]⟩

theorem mem_markHits {m : Mark} {found : List Bool} {events : List Event} {x : Event}
    (h : x ∈ markHits m found events) : ∃ e ∈ events, x = e ∨ x = { e with mark := m } := by
  obtain ⟨i, hi⟩ := List.mem_iff_getElem?.mp h
  rw [getElem?_markHits] at hi
  obtain ⟨e, he, rfl⟩ := Option.map_eq_some_iff.mp hi
  refine ⟨e, List.mem_of_getElem? he, ?_⟩
  split
  · exact .inr rfl
  · exact .inl rfl

theorem mem_dropPlaces {dropped : List Nat} {events : List Event} {x : Event}
    (h : x ∈ dropPlaces dropped events) :
    x ∈ events ∨ ∃ i ∈ dropped, ∃ e, events[i]? = some e ∧ x = e.dropped := by
  obtain ⟨i, hi⟩ := List.mem_iff_getElem?.mp h
  rw [getElem?_dropPlaces] at hi
  obtain ⟨e, he, rfl⟩ := Option.map_eq_some_iff.mp hi
  split
  · rename_i hdropped
    exact .inr ⟨i, by simpa using hdropped, e, he, rfl⟩
  · exact .inl (List.mem_of_getElem? he)

theorem accounted_of_spent {counted : Prop} (h : List.Forall₂ Spent before after)
    (hb : ∀ e ∈ before, e.Accounted counted) : ∀ e ∈ after, e.Accounted counted := by
  induction h with
  | nil => exact hb
  | cons hone _ ih =>
    obtain ⟨he, hrest⟩ := List.forall_mem_cons.mp hb
    exact List.forall_mem_cons.mpr ⟨he.spent hone, ih hrest⟩

theorem accounts_count {m : Mark} {p : Point} (ha : Accounts before)
    (h : count m p pool before = .ok after) : Accounts after := by
  unfold count at h
  cases hh : hits p pool before with
  | error err => rw [hh] at h; cases h
  | ok found =>
    rw [hh] at h
    cases h
    have htally : Counted ((markHits m found before).map collapse ++ [tally m (found.count true)]) :=
      ⟨_, List.mem_append_right _ List.mem_cons_self, rfl⟩
    refine List.forall_mem_append.mpr ⟨?_, List.forall_mem_singleton.mpr (.of_summary (.inr rfl) _)⟩
    intro x hx
    obtain ⟨y, hy, rfl⟩ := List.mem_map.mp hx
    obtain ⟨e, he, rfl | rfl⟩ := mem_markHits hy
    · exact (ha _ he).collapse.mono fun _ => htally
    · exact ((ha e he).marked m).collapse.mono fun _ => htally

theorem accounts_applyModifier {m : Modifier} (ha : Accounts before)
    (h : Returns (applyModifier limits m pool before) answers after) : Accounts after := by
  have hcounted := (applyModifier_grows h).counted
  by_cases hm : m.phase = .generation
  · obtain ⟨old, new, rfl, hold, hnew⟩ := returns_generation hm h
    refine List.forall_mem_append.mpr ⟨?_, fun x hx => .of_incoming (hnew x hx)⟩
    exact accounted_of_spent hold fun e he => (ha e he).mono hcounted
  · obtain ⟨_, hreckoning⟩ := returns_reckoning hm h
    cases hreckoning with
    | drops hranked =>
      intro x hx
      rcases mem_dropPlaces hx with hx | ⟨i, hi, e, he, rfl⟩
      · exact (ha x hx).mono hcounted
      · obtain ⟨e', he', hkept⟩ := isKeptDie_of_mem_ranking (hranked hi)
        cases he.symm.trans he'
        simp only [Event.isKeptDie, Bool.and_eq_true] at hkept
        exact .of_isDie hkept.2 fun hmark =>
          hcounted ((ha e (List.mem_of_getElem? he)).mark hmark)
    | counts hcount => exact accounts_count ha hcount
    | adds amount =>
      refine List.forall_mem_append.mpr ⟨fun x hx => (ha x hx).mono hcounted, ?_⟩
      exact List.forall_mem_singleton.mpr (.of_summary (.inl rfl) amount)

theorem accounts_applyAll {modifiers : List Modifier} {pool : Option (List Bool)}
    (ha : Accounts before) (h : Returns (applyAll limits modifiers pool before) answers after) :
    Accounts after := by
  induction modifiers generalizing pool before answers with
  | nil =>
    obtain ⟨_, rfl⟩ := Draws.returns_done_iff.mp h
    exact ha
  | cons m modifiers ih =>
    obtain ⟨_, mid, _, _, hm, hrest⟩ := Draws.returns_bind_iff.mp h
    exact ih (accounts_applyModifier ha hm) hrest

/-! ## Terms -/

theorem accounts_term {n : Node} (hn : n.IsTerm) {part : Evaluation}
    (h : Returns (n.evaluate limits) answers part) : Accounts part.events := by
  cases hn with
  | constant value =>
    obtain ⟨_, rfl⟩ := Draws.returns_done_iff.mp h
    exact List.forall_mem_singleton.mpr (.of_summary (.inl rfl) value)
  | pool count modifiers _ =>
    obtain ⟨d, ms, drawn, rest, hd, _, _, _, happly, _⟩ := returns_evaluatePool h
    refine accounts_applyAll (fun e he => ?_) happly
    obtain ⟨value, _, rfl⟩ := List.mem_map.mp he
    exact .of_isDie (isDie_drawn (isSome_range_of_poolDie? hd) _ _) fun hm => absurd rfl hm

/-- All events of a term carry the same number, and the term accounts for them. -/
theorem OfTerm.accounts {t : Symbol Sign × Node} {events : List Event} (h : OfTerm limits t events)
    (ht : t.2.IsTerm) : Accounts events ∧ ∃ group, ∀ e ∈ events, e.group = group := by
  cases h with
  | alone hreturns =>
    obtain ⟨_, hungrouped⟩ := returns_term ht hreturns
    exact ⟨accounts_term ht hreturns, none, fun e he => (hungrouped e he).1⟩
  | @inSum sign n answers part number hreturns =>
    have hpart := accounts_term ht hreturns
    have hcounted : Counted part.events → Counted (part.events.map (inGroup number sign)) := by
      rintro ⟨t, ht, htally⟩
      exact ⟨_, List.mem_map_of_mem ht, htally⟩
    refine ⟨fun e he => ?_, some number, group_map_inGroup number sign _⟩
    obtain ⟨x, hx, rfl⟩ := List.mem_map.mp he
    obtain ⟨hsort, htally, hdiscarded, hmark⟩ := (hpart x hx).mono hcounted
    exact ⟨hsort, htally, hdiscarded, hmark⟩

end Evaluation

namespace Report

/-! ## Plain events -/

/-- The characters of a text that are marks other than that of an explosion. -/
abbrev Bare (cs : List Char) : Prop :=
  ∀ c ∈ cs, c ≠ 'r' ∧ c ≠ '~' ∧ c ≠ '*'

theorem bare_numeral (n : Int) : Bare (Text.numeral n) := by
  intro c hc
  have hfigure := isFigure_of_mem_numeral hc
  refine ⟨?_, ?_, ?_⟩ <;> (rintro rfl; revert hfigure; decide)

theorem bare_around_iff (m : Event.Marking) : Bare m.around.1 ∧ Bare m.around.2 ↔
    m.replaced = false ∧ m.dropped = false ∧ m.successful = false := by
  rcases m with ⟨_ | _, _ | _, _ | _, _ | _⟩ <;> simp [Bare, Event.Marking.around]

theorem isPlain_iff {e : Event} : e.IsPlain ↔
    (e.isDiscarded && e.isDie && e.mark = .neutral) = false ∧ e.isDropped = false ∧
      e.mark ≠ .success := by
  have hmarks : e.IsPlain ↔ Bare e.marking.around.1 ∧ Bare e.marking.around.2 := by
    rw [Event.IsPlain, chars_eq, List.forall_mem_append, List.forall_mem_append]
    exact and_congr_right' (and_iff_right (bare_numeral e.value))
  rw [hmarks, bare_around_iff]
  simp [Event.marking]

/-- A plain event that is not kept was counted, as what is no success. -/
theorem kept_or_counted_of_isPlain {counted : Prop} {e : Event} (he : e.IsPlain)
    (ha : e.Accounted counted) : e.isKept = true ∨
      e.isDiscarded = true ∧ (e.isConstant = true ∨ e.isDie = true ∧ e.mark = .failure) ∧
        counted := by
  obtain ⟨hreplaced, hdropped, hsuccess⟩ := isPlain_iff.mp he
  cases hk : e.isKept with
  | true => exact .inl rfl
  | false =>
    have hdiscarded : e.isDiscarded = true := by
      cases hs : e.status <;> simp_all [Event.isKept, Event.isDropped, Event.isDiscarded]
    refine .inr ⟨hdiscarded, ?_⟩
    rcases ha.sort with hdie | hconstant | htally
    · have hneutral : e.mark ≠ .neutral := by simpa [hdiscarded, hdie] using hreplaced
      have hfailure : e.mark = .failure := by cases hm : e.mark <;> simp_all
      exact ⟨.inr ⟨hdie, hfailure⟩, ha.mark hneutral⟩
    · have hdie := Event.IsSummary.isDie (.inl hconstant)
      exact ⟨.inl hconstant, (ha.discarded hdiscarded).resolve_left (by simp [hdie])⟩
    · rw [ha.tally htally] at hk
      cases hk

/-- Dice that are plain afterwards were kept before. -/
def KeptBefore (before after : List Event) : Prop :=
  ∀ (i : Nat) (x : Event), after[i]? = some x → x.isDie = true → x.IsPlain →
    ∃ y, before[i]? = some y ∧ y.isKept = true ∧ y.value = x.value

theorem keptBefore_of_recounts {before after : List Event} (h : Evaluation.Recounts before after) :
    KeptBefore before after := by
  intro i x hx hdie hplain
  obtain ⟨y, hy, hvalue, hstands⟩ := h i x hx hdie
  refine ⟨y, hy, hstands.elim id ?_, hvalue.symm⟩
  rintro ⟨hstatus, hmark⟩
  obtain ⟨hreplaced, hdropped, _⟩ := isPlain_iff.mp hplain
  rw [Event.isKept_iff, ← hstatus]
  cases hs : x.status with
  | kept => rfl
  | dropped => simp [Event.isDropped, hs] at hdropped
  | discarded => simp [Event.isDiscarded, hs, hdie, hmark] at hreplaced

end Report

namespace Notation

open Evaluation

/-- Of a roll that was read, an event shown without a mark of its own is kept. Or else it was
discarded by a count of its term, which is an event of the same group: then it is a constant, or a
die that counts as a failure. So where nothing is counted the plain events are those that are kept.
In any case no plain die was replaced or dropped: on the same draws it is kept in the roll without
its counts and constants. -/
theorem plain_kept_or_counted {text : String} {r : Node} (hr : Grammar.read text = .ok r)
    {σ : Type} [RandomSource σ] {limits : Limits} {s : σ} {e : Evaluation}
    (h : ((r.evaluate limits).run s).result = .ok e) :
    (∀ x ∈ e.events, x.IsPlain → x.isKept = true ∨
      x.isDiscarded = true ∧ (x.isConstant = true ∨ x.isDie = true ∧ x.mark = .failure) ∧
        ∃ t ∈ e.events, t.isTally = true ∧ t.group = x.group) ∧
    ((∀ t ∈ e.events, t.isTally = false) → ∀ x ∈ e.events, x.IsPlain ↔ x.isKept = true) ∧
    let answers := Draws.answersTo s ((r.evaluate limits).run s).requests
    ∃ bare, ((r.uncounted.evaluate limits).run (Source.ofValues answers)).result = .ok bare ∧
      List.Forall₂ Report.KeptBefore (r.uncounted.termEvents bare.events)
        (r.termEvents e.events) := by
  have hflat := isFlat_of_wellFormed (wellFormed_of_read hr)
  obtain ⟨hreturns, _⟩ := Draws.returns_answersTo h
  obtain ⟨hflatten, hterms, _⟩ := ofTerm_termEvents hflat hreturns
  have haccounted : ∀ x ∈ e.events,
      x.Accounted (∃ t ∈ e.events, t.isTally = true ∧ t.group = x.group) := by
    intro x hx
    rw [← hflatten] at hx
    obtain ⟨events, he, hxe⟩ := List.mem_flatten.mp hx
    obtain ⟨t, ht, hof⟩ := exists_ofTerm hterms he
    obtain ⟨haccounts, group, hgroup⟩ := hof.accounts (isTerm_of_mem_terms hflat t ht)
    refine (haccounts x hxe).mono ?_
    rintro ⟨y, hy, htally⟩
    have hmem : y ∈ e.events := hflatten ▸ List.mem_flatten_of_mem he hy
    exact ⟨y, hmem, htally, (hgroup y hy).trans (hgroup x hxe).symm⟩
  have hkept : ∀ x ∈ e.events, x.IsPlain → x.isKept = true ∨
      x.isDiscarded = true ∧ (x.isConstant = true ∨ x.isDie = true ∧ x.mark = .failure) ∧
        ∃ t ∈ e.events, t.isTally = true ∧ t.group = x.group :=
    fun x hx hplain => Report.kept_or_counted_of_isPlain hplain (haccounted x hx)
  refine ⟨hkept, fun hnone x hx => ⟨fun hplain => ?_, fun hk => ?_⟩, ?_⟩
  · refine (hkept x hx hplain).resolve_right ?_
    rintro ⟨_, _, t, ht, htally, _⟩
    exact Bool.false_ne_true ((hnone t ht).symm.trans htally)
  · have hneutral : x.mark = .neutral := by
      by_contra hmark
      obtain ⟨t, ht, htally, _⟩ := (haccounted x hx).mark hmark
      exact Bool.false_ne_true ((hnone t ht).symm.trans htally)
    rw [Event.isKept_iff] at hk
    simp [Report.isPlain_iff, Event.isDiscarded, Event.isDropped, hk, hneutral]
  · obtain ⟨bare, hbare, hrecounts⟩ := returns_uncounted hflat hreturns
    obtain ⟨hresult, _⟩ := Draws.run_script hbare [] []
    simp only [List.nil_append, List.append_nil, List.length_nil] at hresult
    exact ⟨bare, hresult, hrecounts.imp fun _ _ => Report.keptBefore_of_recounts⟩

/-- A die rerolled, one that counts as a failure and one that does not, and a constant in front of
the count. -/
theorem plain_kept_or_counted_failure :
    let r : Node := .pool 2 (.die (.fresh (.sided 6))) [
      .modifier (.onMatch .rerollOnce ⟨.known .equal, 1⟩), .modifier (.adjust (.known .plus) 5),
      .modifier (.onMatch .failure ⟨.known .less, 5⟩)]
    Grammar.read "2d6ro=1+5f<5" = .ok r ∧ ∃ e,
      ((r.evaluate .standard).run (Source.ofValues [1, 6, 4])).result = .ok e ∧
      stepsText e.events = "(1r, 6r, 4, 5, -1)" ∧
      (∀ x ∈ e.events, x.IsPlain → x.isKept = true ∨ ∃ t ∈ e.events, t.isTally = true) ∧
      ∃ bare : Evaluation, stepsText bare.events = "(1r, 6, 4)" ∧
        List.Forall₂ Report.KeptBefore (r.uncounted.termEvents bare.events)
          (r.termEvents e.events) := by
  intro r
  have hfive : Numeric 5 := ⟨by decide, by decide⟩
  have honce : DiceValue (.onMatch .rerollOnce ⟨.known .equal, 1⟩) :=
    .onMatch _ (by decide) ⟨by decide, by decide⟩
  have hplus : ConstantValue (.adjust (.known .plus) 5) := .adjust .plus hfive
  have hfail : DiceValue (.onMatch .failure ⟨.known .less, 5⟩) := .onMatch _ (by decide) hfive
  let ms : List Modifier := [.onMatch .rerollOnce ⟨.known .equal, 1⟩, .adjust (.known .plus) 5,
    .onMatch .failure ⟨.known .less, 5⟩]
  have hms : ∀ m ∈ ms, DiceValue m ∨ ConstantValue m := by
    simp only [ms, List.forall_mem_cons, List.not_mem_nil, false_implies, implies_true, and_true]
    exact ⟨.inl honce, .inr hplus, .inl hfail⟩
  have hinterrupted : Interrupted ms := ⟨ms.take 1, _, [], _, [], rfl, hplus, hfail⟩
  have hwell : WellFormed r := @WellFormed.pool _ _ ms ⟨by decide, by decide⟩
    (.sided ⟨by decide, by decide⟩) hms hinterrupted
  have hread : Grammar.read "2d6ro=1+5f<5" = .ok r := read_of_text hwell rfl
  have he : ((r.evaluate .standard).run (Source.ofValues [1, 6, 4])).result = .ok _ := rfl
  obtain ⟨hplain, _, bare, hbare, hall⟩ := plain_kept_or_counted hread he
  have hdrawn : ((r.uncounted.evaluate .standard).run (Source.ofValues [1, 6, 4])).result =
      .ok _ := rfl
  cases hdrawn.symm.trans hbare
  refine ⟨hread, _, he, by decide +kernel, fun x hx hp => (hplain x hx hp).imp id ?_, _,
    by decide +kernel, hall⟩
  rintro ⟨_, _, t, ht, htally, _⟩
  exact ⟨t, ht, htally⟩

/-- A constant in front of a count does not count, and shows no mark. -/
theorem plain_not_kept_constant :
    let r : Node := .pool 1 (.die (.fresh (.sided 6)))
      [.modifier (.adjust (.known .plus) 5), .modifier (.onMatch .success ⟨.known .greater, 3⟩)]
    Grammar.read "1d6+5>3" = .ok r ∧ ∃ e,
      ((r.evaluate .standard).run (Source.ofValues [4])).result = .ok e ∧
      stepsText e.events = "(**4**, 5, 1)" ∧ e.value = 1 ∧
      ¬ ∀ x ∈ e.events, x.IsPlain → x.isKept = true := by
  intro r
  have hplus : ConstantValue (.adjust (.known .plus) 5) := .adjust .plus ⟨by decide, by decide⟩
  have hsuccess : DiceValue (.onMatch .success ⟨.known .greater, 3⟩) :=
    .onMatch _ (by decide) ⟨by decide, by decide⟩
  let ms : List Modifier := [.adjust (.known .plus) 5, .onMatch .success ⟨.known .greater, 3⟩]
  have hms : ∀ m ∈ ms, DiceValue m ∨ ConstantValue m := by
    simp only [ms, List.forall_mem_cons, List.not_mem_nil, false_implies, implies_true, and_true]
    exact ⟨.inr hplus, .inl hsuccess⟩
  have hinterrupted : Interrupted ms := ⟨[], _, [], _, [], rfl, hplus, hsuccess⟩
  have hwell : WellFormed r := @WellFormed.pool _ _ ms ⟨by decide, by decide⟩
    (.sided ⟨by decide, by decide⟩) hms hinterrupted
  have hread : Grammar.read "1d6+5>3" = .ok r := read_of_text hwell rfl
  have he : ((r.evaluate .standard).run (Source.ofValues [4])).result = .ok _ := rfl
  have hplain : (Event.summary .constant 5).discard.IsPlain :=
    Report.isPlain_iff.mpr ⟨rfl, rfl, by decide⟩
  refine ⟨hread, _, he, by decide +kernel, by decide +kernel, fun hall => ?_⟩
  have hkept := hall _ (List.mem_cons_of_mem _ List.mem_cons_self) hplain
  exact absurd hkept (by decide)

end Notation

end Dice
