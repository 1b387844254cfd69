import Dice.Proofs.Parser.Taking

/-!
# Dice.Proofs.Parser.Lexing

Parsers that pass over blanks in front of and behind what they read.

* `trimStart_spaced` and the like : what is left of a text without the blanks at its start;
* `Parser.Lexes p L F` : `p` takes the words of `L`, wherever `F` holds of what follows them;
* `lexes_spaced` : blanks around the words make no difference;
* `Lexes.takesAll` : such a parser is applied again and again, word by word.
-/

namespace Dice

namespace Parser

variable {α : Type}

/-! ## Blanks at the start -/

theorem trimStart_trimStart (cs : List Char) :
    Text.trimStart (Text.trimStart cs) = Text.trimStart cs :=
  dropWhile_of_stops (stops_dropWhile Text.isBlank cs)

theorem trimStart_append_of_blanks {u : List Char} (hu : Blanks u) (cs : List Char) :
    Text.trimStart (u ++ cs) = Text.trimStart cs :=
  List.dropWhile_append_of_pos hu

theorem length_trimStart_le (cs : List Char) : (Text.trimStart cs).length ≤ cs.length :=
  List.length_dropWhile_le _ _

/-- A text that starts with something else than a blank. -/
def Solid (cs : List Char) : Prop :=
  ∃ c rest, cs = c :: rest ∧ Text.isBlank c = false

theorem Solid.stops_append {v : List Char} (hv : Solid v) (more : List Char) :
    Stops Text.isBlank (v ++ more) := by
  obtain ⟨c, rest, rfl, hc⟩ := hv
  exact stops_cons hc

theorem Solid.trimStart_append {v : List Char} (hv : Solid v) (more : List Char) :
    Text.trimStart (v ++ more) = v ++ more :=
  dropWhile_of_stops (hv.stops_append more)

theorem Solid.trimStart {v : List Char} (hv : Solid v) : Text.trimStart v = v := by
  have htrim := hv.trimStart_append []
  rwa [List.append_nil] at htrim

theorem Solid.append {v : List Char} (hv : Solid v) (more : List Char) : Solid (v ++ more) := by
  obtain ⟨c, rest, rfl, hc⟩ := hv
  exact ⟨c, rest ++ more, rfl, hc⟩

theorem trimStart_spaced {u v w : List Char} (hu : Blanks u) (hv : Solid v) (more : List Char) :
    Text.trimStart ((u ++ (v ++ w)) ++ more) = v ++ (w ++ more) := by
  rw [List.append_assoc, List.append_assoc, trimStart_append_of_blanks hu]
  exact hv.trimStart_append _

/-- Something in the text is not blank. -/
def Inked (cs : List Char) : Prop :=
  ∃ c ∈ cs, Text.isBlank c = false

theorem Solid.inked {v : List Char} (hv : Solid v) (u w : List Char) : Inked (u ++ (v ++ w)) := by
  obtain ⟨c, rest, rfl, hc⟩ := hv
  exact ⟨c, by simp, hc⟩

theorem length_trimStart_lt {u : List Char} (hu : Inked u) (more : List Char) :
    (Text.trimStart more).length < (Text.trimStart (u ++ more)).length := by
  obtain ⟨c, hmem, hc⟩ := hu
  have hne : u.dropWhile Text.isBlank ≠ [] := by
    rw [Ne, List.dropWhile_eq_nil_iff]
    intro hall
    have hblank := hall c hmem
    rw [hc] at hblank
    cases hblank
  have hpos := List.length_pos_iff.mpr hne
  have hle := length_trimStart_le more
  simp only [Text.trimStart, List.dropWhile_append, List.isEmpty_iff] at hle ⊢
  rw [if_neg hne, List.length_append]
  omega

/-! ## Words between blanks -/

section Spaced

variable {L M : List Char → α → Prop} {cs : List Char} {a : α}

theorem Spaced.self (h : L cs a) : Spaced L cs a := by
  simpa using Spaced.intro blanks_nil h blanks_nil

theorem Spaced.mono (h : Spaced L cs a) (hLM : ∀ u, L u a → M u a) : Spaced M cs a := by
  obtain ⟨hu, hv, hw⟩ := h
  exact .intro hu (hLM _ hv) hw

theorem Spaced.of_blanks_append {u : List Char} (hu : Blanks u) (h : Spaced L cs a) :
    Spaced L (u ++ cs) a := by
  obtain ⟨hu', hv, hw⟩ := h
  rw [← List.append_assoc]
  exact .intro (blanks_append hu hu') hv hw

theorem Spaced.append_blanks {w : List Char} (h : Spaced L cs a) (hw : Blanks w) :
    Spaced L (cs ++ w) a := by
  obtain ⟨hu, hv, hw'⟩ := h
  rw [List.append_assoc, List.append_assoc]
  exact .intro hu hv (blanks_append hw' hw)

theorem Repeated.mono {as : List α} (h : Repeated L cs as)
    (hLM : ∀ u, ∀ b ∈ as, L u b → M u b) : Repeated M cs as := by
  induction h with
  | nil => exact .nil
  | cons hu _ ih =>
    exact .cons (hLM _ _ List.mem_cons_self hu)
      (ih fun u b hb => hLM u b (List.mem_cons_of_mem _ hb))

theorem Repeated.forall {P : α → Prop} {as : List α} (h : Repeated L cs as)
    (hP : ∀ u b, L u b → P b) : ∀ b ∈ as, P b := by
  induction h with
  | nil => exact fun _ hb => absurd hb List.not_mem_nil
  | cons hu _ ih => exact List.forall_mem_cons.mpr ⟨hP _ _ hu, ih⟩

theorem Repeated.split {as bs : List α} (h : Repeated L cs (as ++ bs)) :
    ∃ u v, cs = u ++ v ∧ Repeated L u as ∧ Repeated L v bs := by
  induction as generalizing cs with
  | nil => exact ⟨[], cs, rfl, .nil, h⟩
  | cons a as ih =>
    obtain _ | ⟨ha, hrest⟩ := h
    rename_i w rest
    obtain ⟨u, v, rfl, hu, hv⟩ := ih hrest
    exact ⟨w ++ u, v, by rw [List.append_assoc], .cons ha hu, hv⟩

theorem Repeated.append {as bs : List α} {us vs : List Char} (hu : Repeated L us as)
    (hv : Repeated L vs bs) : Repeated L (us ++ vs) (as ++ bs) := by
  induction hu with
  | nil => exact hv
  | cons ha _ ih =>
    rw [List.append_assoc]
    exact .cons ha ih

/-- Blanks at the end belong to the last word. -/
theorem Repeated.append_blanks {as : List α} (h : Repeated (Spaced L) cs as) (hne : as ≠ [])
    {w : List Char} (hw : Blanks w) : Repeated (Spaced L) (cs ++ w) as := by
  induction h with
  | nil => exact absurd rfl hne
  | cons hu hrest ih =>
    cases hrest with
    | nil =>
      rw [List.append_nil]
      simpa using Repeated.cons (hu.append_blanks hw) .nil
    | cons hv hrest =>
      rw [List.append_assoc]
      exact .cons hu (ih (by simp))

end Spaced

/-! ## Words in front of something -/

/-- The blanks around a word are passed over, and nothing behind them. -/
def Lexes (p : Parser α) (L : List Char → α → Prop) (F : List Char → Prop) : Prop :=
  ∀ u a cs more, L u a → Text.trimStart cs = Text.trimStart (u ++ more) → F more →
    p.Takes cs a (Text.trimStart more)

variable {L : List Char → α → Prop} {F : List Char → Prop} {p : Parser α}

/-- It is enough to know words that have no blanks around them. -/
theorem lexes_spaced
    (hp : ∀ v a cs more, L v a → Text.trimStart cs = v ++ more → F more →
      p.Takes cs a (Text.trimStart more))
    (hL : ∀ v a, L v a → Solid v) (hF : ∀ w more, Blanks w → F more → F (w ++ more)) :
    p.Lexes (Spaced L) F := by
  rintro _ a cs more ⟨hu, hv, hw⟩ hcs hmore
  rename_i u v w
  rw [trimStart_spaced hu (hL v a hv)] at hcs
  rw [← trimStart_append_of_blanks hw]
  exact hp v a cs (w ++ more) hv hcs (hF w more hw hmore)

/-- What may follow the words may follow them with more words in between. -/
theorem follows_repeated (hF : ∀ u a more, L u a → F (u ++ more)) {ws : List Char} {as : List α}
    (h : Repeated L ws as) {tail : List Char} (htail : F tail) : F (ws ++ tail) := by
  cases h with
  | nil => exact htail
  | cons hu _ =>
    rw [List.append_assoc]
    exact hF _ _ _ hu

theorem Lexes.takesAll (hp : p.Lexes L F) (hL : ∀ u a, L u a → Inked u)
    (hF : ∀ u a more, L u a → F (u ++ more)) {ws : List Char} {as : List α} (h : Repeated L ws as)
    {tail : List Char} (htail : F tail) (hrefuses : p.Refuses (Text.trimStart tail)) :
    TakesAll p (Text.trimStart (ws ++ tail)) as (Text.trimStart tail) := by
  induction h with
  | nil => exact .nil hrefuses
  | cons hu hrest ih =>
    rename_i u v a as
    rw [List.append_assoc]
    refine .cons ?_ (length_trimStart_lt (hL u a hu) _) ih
    exact hp u a _ _ hu (trimStart_trimStart _) (follows_repeated hF hrest htail)

/-- Where no word is left the blanks that follow may still be there. -/
theorem Lexes.takesAll_raw (hp : p.Lexes L F) (hL : ∀ u a, L u a → Inked u)
    (hF : ∀ u a more, L u a → F (u ++ more)) {ws : List Char} {as : List α} (h : Repeated L ws as)
    {tail : List Char} (htail : F tail)
    (hrefuses : ∀ cs, Text.trimStart cs = Text.trimStart tail → p.Refuses cs) :
    ∃ left, TakesAll p (ws ++ tail) as left ∧ Text.trimStart left = Text.trimStart tail := by
  cases h with
  | nil => exact ⟨tail, .nil (hrefuses tail rfl), rfl⟩
  | cons hu hrest =>
    rename_i u v a as
    refine ⟨Text.trimStart tail, ?_, trimStart_trimStart tail⟩
    rw [List.append_assoc]
    refine .cons (hp u a _ _ hu rfl (follows_repeated hF hrest htail)) ?_
      (hp.takesAll hL hF hrest htail (hrefuses _ (trimStart_trimStart tail)))
    exact Nat.lt_of_lt_of_le (length_trimStart_lt (hL u a hu) _) (length_trimStart_le _)

end Parser

end Dice
