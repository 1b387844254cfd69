import Dice.Proofs.Parser.Reading

/-!
# Dice.Proofs.Parser.Failing

Where a parser fails.

* `Parser.Halts p V` : wherever `p` fails, what stands between its start and that place is a word of
  `V`.
* `halts_attempt`, `halts_alternative` : some parsers fail only where they start.
* `halts_andThen`, `halts_many` : others fail behind words that they have read.
-/

namespace Dice

namespace Parser

variable {α β : Type}

def Halts (p : Parser α) (V : List Char → Prop) : Prop :=
  ∀ size rest expected offset, rest.length ≤ size →
    p.run (.before size rest) = .failure expected offset →
      ∃ used left, rest = used ++ left ∧ offset = (Cursor.before size left).offset ∧ V used

/-- Nothing is consumed by a failure. -/
abbrev Rewinds (p : Parser α) : Prop :=
  p.Halts (· = [])

variable {p : Parser α} {q : Parser β} {L : List Char → α → Prop} {V W : List Char → Prop}

theorem Halts.mono (h : p.Halts V) (hVW : ∀ u, V u → W u) : p.Halts W := by
  intro size rest expected offset hs hr
  obtain ⟨used, left, hrest, hoffset, hV⟩ := h size rest expected offset hs hr
  exact ⟨used, left, hrest, hoffset, hVW used hV⟩

theorem rewinds_of_offset (h : ∀ c expected offset, p.run c = .failure expected offset →
    offset = c.offset) : p.Rewinds := by
  intro size rest expected offset _ hr
  exact ⟨[], rest, rfl, h _ expected offset hr, rfl⟩

theorem Rewinds.offset_eq (h : p.Rewinds) {size : Nat} {rest : List Char} {expected : String}
    {offset : Nat} (hs : rest.length ≤ size)
    (hr : p.run (.before size rest) = .failure expected offset) :
    offset = (Cursor.before size rest).offset := by
  obtain ⟨used, left, rfl, hoffset, rfl⟩ := h size rest expected offset hs hr
  exact hoffset

/-! ## Failures at the start -/

theorem halts_endOfInput : endOfInput.Rewinds := by
  refine rewinds_of_offset ?_
  intro c expected offset hr
  simp only [endOfInput] at hr
  split at hr
  · cases hr
  · cases hr
    rfl

theorem offset_of_attempt {c : Cursor} {expected : String} {offset : Nat}
    (hr : (attempt p).run c = .failure expected offset) : offset = c.offset := by
  simp only [attempt] at hr
  cases hp : p.run c with
  | success a next => rw [hp] at hr; cases hr
  | failure expected' offset' => rw [hp] at hr; cases hr; rfl
  | overlong digits => rw [hp] at hr; cases hr

theorem halts_attempt (p : Parser α) : (attempt p).Rewinds :=
  rewinds_of_offset fun _ _ _ => offset_of_attempt

theorem halts_token (p : Parser α) : (token p).Rewinds :=
  halts_attempt _

theorem Halts.map (h : p.Halts V) (f : α → β) : (p.map f).Halts V := by
  intro size rest expected offset hs hr
  simp only [Parser.map] at hr
  cases hp : p.run (.before size rest) with
  | success a next => rw [hp] at hr; cases hr
  | failure expected' offset' =>
    rw [hp] at hr
    cases hr
    exact h size rest expected offset hs hp
  | overlong digits => rw [hp] at hr; cases hr

theorem halts_alternative {ps : List (Parser α)} (h : ∀ p ∈ ps, p.Rewinds) :
    (alternative ps).Rewinds := by
  intro size rest expected offset hs hr
  refine ⟨[], rest, rfl, ?_, rfl⟩
  simp only [alternative] at hr
  generalize joinNames " or " ps = name at hr
  induction ps with
  | nil =>
    cases hr
    rfl
  | cons p ps ih =>
    obtain ⟨hp, hrest⟩ := List.forall_mem_cons.mp h
    simp only [runFirst] at hr
    cases hrun : p.run (.before size rest) with
    | success a next => rw [hrun] at hr; cases hr
    | failure expected' offset' =>
      simp only [hrun, if_pos (hp.offset_eq hs hrun)] at hr
      exact ih hrest hr
    | overlong digits => rw [hrun] at hr; cases hr

/-! ## Failures behind words -/

theorem halts_andThen (hp : p.Reads L) (hV : p.Halts V) (hW : q.Halts W) :
    (p.andThen q).Halts fun u => V u ∨ ∃ v w a, u = v ++ w ∧ L v a ∧ W w := by
  intro size rest expected offset hs hr
  simp only [andThen] at hr
  cases hrun : p.run (.before size rest) with
  | success a next =>
    obtain ⟨v, mid, rfl, rfl, hv⟩ := hp.success hs hrun
    have hmid : mid.length ≤ size := by
      rw [List.length_append] at hs
      omega
    simp only [hrun] at hr
    cases hnext : q.run (.before size mid) with
    | success b next => rw [hnext] at hr; cases hr
    | failure expected' offset' =>
      rw [hnext] at hr
      cases hr
      obtain ⟨w, left, rfl, hoffset, hw⟩ := hW size mid expected offset hmid hnext
      exact ⟨v ++ w, left, by simp, hoffset, .inr ⟨v, w, a, rfl, hv, hw⟩⟩
    | overlong digits => rw [hnext] at hr; cases hr
  | failure expected' offset' =>
    rw [hrun] at hr
    cases hr
    obtain ⟨used, left, hrest, hoffset, hu⟩ := hV size rest expected offset hs hrun
    exact ⟨used, left, hrest, hoffset, .inl hu⟩
  | overlong digits => rw [hrun] at hr; cases hr

/-- Some words, and then a failure that has consumed something. -/
def Broken (L : List Char → α → Prop) (V : List Char → Prop) (u : List Char) : Prop :=
  ∃ v w as, u = v ++ w ∧ Repeated L v as ∧ V w ∧ w ≠ []

theorem broken_of_failure (L : List Char → α → Prop) (hV : p.Halts V) {size : Nat}
    {rest : List Char} {expected : String} {offset : Nat} (hs : rest.length ≤ size)
    (hr : p.run (.before size rest) = .failure expected offset)
    (hne : offset ≠ (Cursor.before size rest).offset) :
    ∃ used left, rest = used ++ left ∧ offset = (Cursor.before size left).offset ∧
      Broken L V used := by
  obtain ⟨used, left, rfl, hoffset, hu⟩ := hV size rest expected offset hs hr
  refine ⟨used, left, rfl, hoffset, [], used, [], rfl, .nil, hu, ?_⟩
  rintro rfl
  exact hne hoffset

/-- The repetition goes on only where a failure is at its start. -/
theorem halts_runMany (hp : p.Reads L) (hV : p.Halts V) (count : Nat) (values : List α)
    {size : Nat} {rest : List Char} {expected : String} {offset : Nat} (hs : rest.length ≤ size)
    (hr : runMany p.run count values (.before size rest) = .failure expected offset) :
    ∃ used left, rest = used ++ left ∧ offset = (Cursor.before size left).offset ∧
      Broken L V used := by
  induction count generalizing values rest with
  | zero =>
    rw [runMany] at hr
    cases hrun : p.run (.before size rest) with
    | success a next =>
      simp only [hrun, ite_self] at hr
      cases hr
    | failure expected' offset' =>
      simp only [hrun] at hr
      split at hr
      · cases hr
      · rename_i hne
        cases hr
        exact broken_of_failure L hV hs hrun hne
    | overlong digits => rw [hrun] at hr; cases hr
  | succ count ih =>
    rw [runMany] at hr
    cases hrun : p.run (.before size rest) with
    | success a next =>
      obtain ⟨v, mid, rfl, rfl, hv⟩ := hp.success hs hrun
      have hmid : mid.length ≤ size := by
        rw [List.length_append] at hs
        omega
      simp only [hrun] at hr
      split at hr
      · cases hr
      · obtain ⟨used, left, rfl, hoffset, v', w, as, rfl, hwords, hw, hne⟩ := ih _ hmid hr
        refine ⟨v ++ (v' ++ w), left, by simp, hoffset, ?_⟩
        exact ⟨v ++ v', w, a :: as, by simp, .cons hv hwords, hw, hne⟩
    | failure expected' offset' =>
      simp only [hrun] at hr
      split at hr
      · cases hr
      · rename_i hne
        cases hr
        exact broken_of_failure L hV hs hrun hne
    | overlong digits => rw [hrun] at hr; cases hr

theorem halts_many (hp : p.Reads L) (hV : p.Halts V) : (many p).Halts (Broken L V) :=
  fun _ rest _ _ hs hr => halts_runMany hp hV rest.length [] hs hr

end Parser

end Dice
