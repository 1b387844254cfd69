import Dice.Proofs.Parser.Reading

/-!
# Dice.Proofs.Parser.Taking

How a parser answers in front of a given text.

* `Parser.Takes p cs a left` : in front of `cs` the parser reads `a` and leaves `left`.
* `Parser.Refuses p cs`, `Parser.Fails p cs` : it fails without, or with or without, having
  consumed anything.
* `Stops accepts cs` : no character of a class comes next.
* `TakesAll` : a parser applied again and again up to where it refuses, which is what `many` does.
-/

namespace Dice

namespace Parser

variable {α β : Type}

def Takes (p : Parser α) (cs : List Char) (a : α) (left : List Char) : Prop :=
  left.length ≤ cs.length ∧
    ∀ size, cs.length ≤ size → p.run (.before size cs) = .success a (.before size left)

def Fails (p : Parser α) (cs : List Char) : Prop :=
  ∀ size, cs.length ≤ size → ∃ expected offset, p.run (.before size cs) = .failure expected offset

def Refuses (p : Parser α) (cs : List Char) : Prop :=
  ∀ size, cs.length ≤ size →
    ∃ expected, p.run (.before size cs) = .failure expected (Cursor.before size cs).offset

theorem Refuses.fails {p : Parser α} {cs : List Char} (h : p.Refuses cs) : p.Fails cs := by
  intro size hs
  obtain ⟨expected, hr⟩ := h size hs
  exact ⟨expected, _, hr⟩

theorem Takes.unique {p : Parser α} {cs left left' : List Char} {a a' : α} (h : p.Takes cs a left)
    (h' : p.Takes cs a' left') : a = a' ∧ left = left' := by
  have heq := (h.2 cs.length (Nat.le_refl _)).symm.trans (h'.2 cs.length (Nat.le_refl _))
  simp only [Outcome.success.injEq, Cursor.before, Cursor.mk.injEq] at heq
  exact ⟨heq.1, heq.2.2.1⟩

/-! ## Classes of characters -/

/-- Nothing of the class comes next. -/
def Stops (accepts : Char → Bool) (cs : List Char) : Prop :=
  ∀ c, cs.head? = some c → accepts c = false

theorem stops_nil (accepts : Char → Bool) : Stops accepts [] := by
  intro c hc; cases hc

theorem stops_cons {accepts : Char → Bool} {c : Char} {cs : List Char} (h : accepts c = false) :
    Stops accepts (c :: cs) := by
  intro c' hc'; cases hc'; exact h

theorem stops_dropWhile (accepts : Char → Bool) (cs : List Char) :
    Stops accepts (cs.dropWhile accepts) := by
  intro c hc
  have h := List.head?_dropWhile_not accepts cs
  rw [hc] at h
  simpa using h

theorem takeWhile_of_stops {accepts : Char → Bool} {cs : List Char} (h : Stops accepts cs) :
    cs.takeWhile accepts = [] := by
  cases cs with
  | nil => rfl
  | cons c cs => simp [h c rfl]

theorem dropWhile_of_stops {accepts : Char → Bool} {cs : List Char} (h : Stops accepts cs) :
    cs.dropWhile accepts = cs := by
  cases cs with
  | nil => rfl
  | cons c cs => simp [h c rfl]

theorem takeWhile_append_of_stops {accepts : Char → Bool} {ds rest : List Char}
    (hds : ∀ c ∈ ds, accepts c = true) (h : Stops accepts rest) :
    (ds ++ rest).takeWhile accepts = ds := by
  rw [List.takeWhile_append_of_pos hds, takeWhile_of_stops h, List.append_nil]

/-! ## Leaves -/

theorem takes_char {wanted : String} {c : Char} (hw : wanted.toList = [c]) (cs : List Char) :
    (char wanted).Takes (c :: cs) c cs := by
  refine ⟨by simp, ?_⟩
  intro size hs
  have hadv := Cursor.advance_before [c] hs
  rw [← show _ = Cursor.before size cs from hadv]
  simp only [char, satisfy, Cursor.before, hw, beq_self_eq_true, if_true]
  rfl

theorem refuses_char {wanted : String} {c : Char} (hw : wanted.toList = [c]) {cs : List Char}
    (h : cs.head? ≠ some c) : (char wanted).Refuses cs := by
  intro size _
  cases cs with
  | nil => exact ⟨_, rfl⟩
  | cons c' cs =>
    have hne : ([c'] == [c]) = false := by simpa using h
    refine ⟨Text.quoted wanted, ?_⟩
    simp only [char, satisfy, Cursor.before, hw, hne, Bool.false_eq_true, if_false]

theorem takes_string (wanted : String) (cs : List Char) :
    (string wanted).Takes (wanted.toList ++ cs) wanted cs := by
  refine ⟨by simp, ?_⟩
  intro size hs
  have hp : wanted.toList.isPrefixOf (wanted.toList ++ cs) = true := by simp
  simp only [string, Cursor.before, hp, Bool.not_false, Bool.and_self, if_true]
  exact congrArg _ (Cursor.advance_before _ hs)

theorem refuses_string {wanted : String} {cs : List Char} (h : ¬ wanted.toList <+: cs) :
    (string wanted).Refuses cs := by
  intro size _
  have hp : wanted.toList.isPrefixOf cs = false := by
    rw [Bool.eq_false_iff]
    simpa using h
  refine ⟨Text.quoted wanted, ?_⟩
  simp only [string, Cursor.before, hp, Bool.false_and, Bool.false_eq_true, if_false]

theorem takes_whitespace (cs : List Char) : whitespace.Takes cs () (Text.trimStart cs) := by
  refine ⟨List.length_dropWhile_le _ _, ?_⟩
  intro size hs
  exact congrArg _ (Cursor.advance_takeWhile hs _)

theorem takes_endOfInput : endOfInput.Takes [] () [] :=
  ⟨Nat.le_refl _, fun _ _ => rfl⟩

theorem fails_endOfInput {cs : List Char} (h : cs ≠ []) : endOfInput.Fails cs := by
  intro size _
  cases cs with
  | nil => exact absurd rfl h
  | cons c cs => exact ⟨_, _, rfl⟩

theorem takes_positiveInt {ds cs : List Char} {n : Nat} (hn : Number ds n)
    (hcs : Stops Text.isDigit cs) : positiveInt.Takes (ds ++ cs) n cs := by
  obtain ⟨hne, hdigits, hlen, hpos⟩ := hn
  refine ⟨by simp, ?_⟩
  intro size hs
  have hrun := takeWhile_append_of_stops hdigits hcs
  simp only [positiveInt, Cursor.before, hrun]
  rw [if_neg (by simpa using hne), if_neg (by omega), if_neg (by omega)]
  exact congrArg _ (Cursor.advance_before _ hs)

theorem refuses_positiveInt {cs : List Char} (h : Stops Text.isDigit cs) :
    positiveInt.Refuses cs := by
  intro size _
  have hrun := takeWhile_of_stops h
  refine ⟨"positive integer", ?_⟩
  simp only [positiveInt, Cursor.before, hrun, List.isEmpty_nil, if_true]

/-! ## Combinators -/

theorem Takes.map {p : Parser α} {cs left : List Char} {a : α} (h : p.Takes cs a left) (f : α → β) :
    (p.map f).Takes cs (f a) left := by
  refine ⟨h.1, ?_⟩
  intro size hs
  simp [Parser.map, h.2 size hs, Outcome.map]

theorem Fails.map {p : Parser α} {cs : List Char} (h : p.Fails cs) (f : α → β) :
    (p.map f).Fails cs := by
  intro size hs
  obtain ⟨expected, offset, hr⟩ := h size hs
  exact ⟨expected, offset, by simp [Parser.map, hr, Outcome.map]⟩

theorem Refuses.map {p : Parser α} {cs : List Char} (h : p.Refuses cs) (f : α → β) :
    (p.map f).Refuses cs := by
  intro size hs
  obtain ⟨expected, hr⟩ := h size hs
  exact ⟨expected, by simp [Parser.map, hr, Outcome.map]⟩

theorem Takes.andThen {p : Parser α} {q : Parser β} {cs mid left : List Char} {a : α} {b : β}
    (hp : p.Takes cs a mid) (hq : q.Takes mid b left) : (p.andThen q).Takes cs (a, b) left := by
  refine ⟨Nat.le_trans hq.1 hp.1, ?_⟩
  intro size hs
  simp [Parser.andThen, hp.2 size hs, hq.2 size (Nat.le_trans hp.1 hs), Outcome.map]

theorem Fails.andThen {p : Parser α} {cs : List Char} (h : p.Fails cs) (q : Parser β) :
    (p.andThen q).Fails cs := by
  intro size hs
  obtain ⟨expected, offset, hr⟩ := h size hs
  exact ⟨expected, offset, by simp [Parser.andThen, hr]⟩

theorem Refuses.andThen {p : Parser α} {cs : List Char} (h : p.Refuses cs) (q : Parser β) :
    (p.andThen q).Refuses cs := by
  intro size hs
  obtain ⟨expected, hr⟩ := h size hs
  exact ⟨expected, by simp [Parser.andThen, hr]⟩

theorem Takes.andThen_fails {p : Parser α} {q : Parser β} {cs mid : List Char} {a : α}
    (hp : p.Takes cs a mid) (hq : q.Fails mid) : (p.andThen q).Fails cs := by
  intro size hs
  obtain ⟨expected, offset, hr⟩ := hq size (Nat.le_trans hp.1 hs)
  exact ⟨expected, offset, by simp [Parser.andThen, hp.2 size hs, hr, Outcome.map]⟩

theorem Takes.attempt {p : Parser α} {cs left : List Char} {a : α} (h : p.Takes cs a left) :
    (attempt p).Takes cs a left := by
  refine ⟨h.1, ?_⟩
  intro size hs
  simp [Parser.attempt, h.2 size hs]

theorem Fails.attempt {p : Parser α} {cs : List Char} (h : p.Fails cs) : (attempt p).Refuses cs := by
  intro size hs
  obtain ⟨expected, offset, hr⟩ := h size hs
  exact ⟨expected, by simp [Parser.attempt, hr]⟩

theorem Takes.optional {p : Parser α} {cs left : List Char} {a : α} (h : p.Takes cs a left)
    (default : α) : (optional p default).Takes cs a left := by
  refine ⟨h.1, ?_⟩
  intro size hs
  simp [Parser.optional, h.2 size hs]

theorem Fails.optional {p : Parser α} {cs : List Char} (h : p.Fails cs) (default : α) :
    (optional p default).Takes cs default cs := by
  refine ⟨Nat.le_refl _, ?_⟩
  intro size hs
  obtain ⟨expected, offset, hr⟩ := h size hs
  simp [Parser.optional, hr]

/-- A token passes over the blanks on both sides. -/
theorem Takes.token {p : Parser α} {cs mid : List Char} {a : α}
    (h : p.Takes (Text.trimStart cs) a mid) : (token p).Takes cs a (Text.trimStart mid) :=
  ((((takes_whitespace cs).andThen h).andThen (takes_whitespace mid)).map _).attempt

theorem Fails.token {p : Parser α} {cs : List Char} (h : p.Fails (Text.trimStart cs)) :
    (token p).Refuses cs :=
  ((((takes_whitespace cs).andThen_fails h).andThen whitespace).map _).attempt

/-! ## Choices -/

theorem runFirst_success {ps : List (Parser α)} {c next : Cursor} {a : α} {expected : String}
    (h : runFirst expected ps c = .success a next) (other : String) :
    runFirst other ps c = .success a next := by
  induction ps with
  | nil => cases h
  | cons p ps ih =>
    simp only [runFirst] at h ⊢
    cases hr : p.run c with
    | success a' next' => rw [hr] at h; exact h
    | failure expected' offset =>
      simp only [hr] at h
      simp only
      split
      · rename_i ho
        rw [if_pos ho] at h
        exact ih h
      · rename_i ho
        rw [if_neg ho] at h
        cases h
    | overlong digits => rw [hr] at h; cases h

/-- A choice that succeeds is the first, or the first one failed. -/
theorem success_alternative_cons {p : Parser α} {ps : List (Parser α)} {c next : Cursor} {a : α}
    (h : (alternative (p :: ps)).run c = .success a next) :
    p.run c = .success a next ∨
      (∃ expected offset, p.run c = .failure expected offset) ∧
        (alternative ps).run c = .success a next := by
  simp only [alternative, runFirst] at h
  cases hr : p.run c with
  | success a' next' => rw [hr] at h; exact .inl h
  | failure expected offset =>
    simp only [hr] at h
    split at h
    · exact .inr ⟨⟨expected, offset, rfl⟩, runFirst_success h _⟩
    · cases h
  | overlong digits => rw [hr] at h; cases h

theorem Takes.alternative_cons {p : Parser α} {cs left : List Char} {a : α} (h : p.Takes cs a left)
    (ps : List (Parser α)) : (alternative (p :: ps)).Takes cs a left := by
  refine ⟨h.1, ?_⟩
  intro size hs
  simp [Parser.alternative, runFirst, h.2 size hs]

theorem Refuses.alternative_cons {p : Parser α} {ps : List (Parser α)} {cs left : List Char} {a : α}
    (hp : p.Refuses cs) (hps : (alternative ps).Takes cs a left) :
    (alternative (p :: ps)).Takes cs a left := by
  refine ⟨hps.1, ?_⟩
  intro size hs
  obtain ⟨expected, hr⟩ := hp size hs
  simp only [Parser.alternative, runFirst, hr, if_true]
  exact runFirst_success (hps.2 size hs) _

theorem Takes.alternative_append {before : List (Parser α)} {p : Parser α} {cs left : List Char}
    {a : α} (hp : p.Takes cs a left) (hbefore : ∀ q ∈ before, q.Refuses cs)
    (after : List (Parser α)) : (alternative (before ++ p :: after)).Takes cs a left := by
  induction before with
  | nil => exact hp.alternative_cons after
  | cons q before ih =>
    obtain ⟨hq, hbefore⟩ := List.forall_mem_cons.mp hbefore
    exact hq.alternative_cons (ih hbefore)

theorem refuses_alternative {ps : List (Parser α)} {cs : List Char}
    (h : ∀ p ∈ ps, p.Refuses cs) : (alternative ps).Refuses cs := by
  intro size hs
  refine ⟨joinNames " or " ps, ?_⟩
  simp only [Parser.alternative]
  generalize joinNames " or " ps = name
  induction ps with
  | nil => rfl
  | cons p ps ih =>
    obtain ⟨hp, hrest⟩ := List.forall_mem_cons.mp h
    obtain ⟨expected, hr⟩ := hp size hs
    simp only [runFirst, hr, if_true]
    exact ih hrest

/-! ## Repetition -/

/-- As often as the parser takes something, up to where it refuses. -/
inductive TakesAll (p : Parser α) : List Char → List α → List Char → Prop where
  | nil {cs : List Char} : p.Refuses cs → TakesAll p cs [] cs
  | cons {cs mid left : List Char} {a : α} {as : List α} :
      p.Takes cs a mid → mid.length < cs.length → TakesAll p mid as left →
      TakesAll p cs (a :: as) left

theorem TakesAll.runMany {p : Parser α} {cs left : List Char} {as : List α}
    (h : TakesAll p cs as left) {size : Nat} (hs : cs.length ≤ size) {count : Nat}
    (hc : cs.length ≤ count) (values : List α) :
    runMany p.run count values (.before size cs) =
      .success (values.reverse ++ as) (.before size left) := by
  induction h generalizing count values with
  | nil hrefuses =>
    obtain ⟨expected, hr⟩ := hrefuses size hs
    rw [Parser.runMany, hr]
    simp
  | cons htakes hlt _ ih =>
    have hmid := Nat.le_trans htakes.1 hs
    -- what is taken is not empty, so the offset moves and the bound lasts to the end
    have hne := (not_congr (Cursor.offset_before_eq_iff hs hmid)).mpr (Nat.ne_of_lt hlt)
    rw [Parser.runMany, htakes.2 size hs]
    simp only [hne, if_false]
    cases count with
    | zero => omega
    | succ count =>
      simp only
      rw [ih hmid (by omega)]
      simp

theorem TakesAll.many {p : Parser α} {cs left : List Char} {as : List α}
    (h : TakesAll p cs as left) : (many p).Takes cs as left := by
  refine ⟨?_, ?_⟩
  · induction h with
    | nil _ => exact Nat.le_refl _
    | cons _ hlt _ ih => omega
  · intro size hs
    exact h.runMany hs (Nat.le_refl _) []

end Parser

end Dice
