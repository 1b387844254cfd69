import Dice.Proofs.Parser.Shifting

/-!
# Dice.Proofs.Parser.Repeating

Repetitions as loops that nothing bounds, and where they end.

* `Parser.Onward p text` : the successes of `p` in a text neither go back nor past its end.
* `Local.onward` : those of the parsers that are made of the leaves by the combinators are such.
* `Ascent p text pos as last` : successes of `p` from `pos` to `last`, each of which goes on.
* `Stalls p text last` : there is no such success at `last`.
* `Loops p values c calls o` : the loop, with the number of times that it calls `p`.
* `Loops.runMany` : a repetition whose bound allows so many calls gives what the loop gives.
* `many_collects_ascent` : the loop ends behind the only ascent that stalls, at the end of the text at
  the latest, and a repetition gives the values of that ascent, or the failure behind it.
-/

namespace Dice

namespace Parser

variable {α : Type} {p : Parser α} {text : List Char} {pos last : Nat}

/-! ## Going on in a text -/

def Onward (p : Parser α) (text : List Char) : Prop :=
  ∀ pos ≤ text.length, ∀ a next, p.run (.ofText text pos) = .success a next →
    ∃ pos', pos ≤ pos' ∧ pos' ≤ text.length ∧ next = .ofText text pos'

theorem Cursor.length_rest_ofText (text : List Char) (pos : Nat) :
    (Cursor.ofText text pos).rest.length = text.length - pos :=
  List.length_drop

theorem Cursor.advance_ofText {n : Nat} (h : pos + n ≤ text.length) :
    (Cursor.ofText text pos).advance n = .ofText text (pos + n) := by
  have hstart : ¬ text.length < pos := by omega
  have hend : ¬ text.length < pos + n := by omega
  simp [Cursor.ofText, Cursor.advance, hstart, hend]

theorem Local.onward (hp : p.Local) (text : List Char) : p.Onward text := by
  intro pos hpos a next hr
  obtain ⟨n, hn, rfl⟩ := hp.exists_advance hr
  rw [Cursor.length_rest_ofText] at hn
  exact ⟨pos + n, by omega, by omega, Cursor.advance_ofText (by omega)⟩

/-! ## Ascents -/

inductive Ascent (p : Parser α) (text : List Char) : Nat → List α → Nat → Prop where
  | here (pos : Nat) : Ascent p text pos [] pos
  | step {pos mid last : Nat} {a : α} {as : List α} : pos < mid →
      p.run (.ofText text pos) = .success a (.ofText text mid) → Ascent p text mid as last →
      Ascent p text pos (a :: as) last

def Stalls (p : Parser α) (text : List Char) (last : Nat) : Prop :=
  ∀ a mid, last < mid → p.run (.ofText text last) ≠ .success a (.ofText text mid)

theorem Ascent.length_le {as : List α} (h : Ascent p text pos as last) :
    pos + as.length ≤ last := by
  induction h with
  | here pos => exact Nat.le_refl _
  | step hlt _ _ ih =>
    rw [List.length_cons]
    omega

theorem ofText_inj {mid mid' : Nat} (h : Cursor.ofText text mid = .ofText text mid') : mid = mid' :=
  congrArg Cursor.offset h

theorem Ascent.unique {as as' : List α} {last' : Nat} (h : Ascent p text pos as last)
    (hlast : Stalls p text last) (h' : Ascent p text pos as' last') (hlast' : Stalls p text last') :
    as = as' ∧ last = last' := by
  induction h generalizing as' with
  | here pos =>
    cases h' with
    | here => exact ⟨rfl, rfl⟩
    | step hlt hr _ => exact absurd hr (hlast _ _ hlt)
  | step hlt hr _ ih =>
    cases h' with
    | here => exact absurd hr (hlast' _ _ hlt)
    | step _ hr' hrest =>
      rw [hr] at hr'
      simp only [Outcome.success.injEq] at hr'
      obtain ⟨rfl, hmid⟩ := hr'
      obtain rfl := ofText_inj hmid
      obtain ⟨rfl, rfl⟩ := ih hlast hrest
      exact ⟨rfl, rfl⟩

/-- The characters that are left bound the number of successes that go on. -/
theorem Onward.exists_ascent (hp : p.Onward text) (hpos : pos ≤ text.length) :
    ∃ as last, Ascent p text pos as last ∧ Stalls p text last ∧ last ≤ text.length := by
  induction hleft : text.length - pos using Nat.strongRecOn generalizing pos with
  | ind left ih =>
    by_cases hgoes : ∃ a mid, pos < mid ∧ p.run (.ofText text pos) = .success a (.ofText text mid)
    · obtain ⟨a, mid, hlt, hr⟩ := hgoes
      obtain ⟨mid', _, hmid', heq⟩ := hp pos hpos a _ hr
      obtain rfl := ofText_inj heq
      obtain ⟨as, last, hascent, hlast⟩ := ih (text.length - mid) (by omega) hmid' rfl
      exact ⟨a :: as, last, .step hlt hr hascent, hlast⟩
    · exact ⟨[], pos, .here pos, fun a mid hlt hr => hgoes ⟨a, mid, hlt, hr⟩, hpos⟩

/-! ## The loop -/

/-- What one call of the parser makes of the values so far. -/
inductive Turn (α : Type) where
  | ends (o : Outcome (List α))
  | goes (values : List α) (next : Cursor)

/-- Only a success that has moved goes on; one that has not moved still counts. -/
def turn (p : Parser α) (values : List α) (c : Cursor) : Turn α :=
  match p.run c with
  | .success a next =>
    if next.offset = c.offset then .ends (.success (values ++ [a]) next)
    else .goes (values ++ [a]) next
  | .failure expected offset =>
    if offset = c.offset then .ends (.success values c) else .ends (.failure expected offset)
  | .overlong digits => .ends (.overlong digits)

/-- Turn after turn up to one that ends, however many that are. -/
inductive Loops (p : Parser α) : List α → Cursor → Nat → Outcome (List α) → Prop where
  | ends {values : List α} {c : Cursor} {o : Outcome (List α)} :
      turn p values c = .ends o → Loops p values c 1 o
  | goes {values values' : List α} {c next : Cursor} {calls : Nat} {o : Outcome (List α)} :
      turn p values c = .goes values' next → Loops p values' next calls o →
      Loops p values c (calls + 1) o

variable {values : List α} {c : Cursor} {calls : Nat} {o : Outcome (List α)}

/-- A repetition takes the same turns, up to its bound. -/
theorem runMany_eq (p : Parser α) (left : Nat) (values : List α) (c : Cursor) :
    runMany p.run left values.reverse c =
      match turn p values c, left with
      | .ends o, _ => o
      | .goes values' next, 0 => .success values' next
      | .goes values' next, left + 1 => runMany p.run left values'.reverse next := by
  rw [runMany, turn]
  cases p.run c with
  | success a next =>
    by_cases h : next.offset = c.offset
    · simp [h]
    · cases left <;> simp [h]
  | failure expected offset => by_cases h : offset = c.offset <;> simp [h]
  | overlong digits => rfl

/-- A repetition that may call the parser so often does what the loop does. -/
theorem Loops.runMany (h : Loops p values c calls o) {left : Nat} (hleft : calls ≤ left + 1) :
    runMany p.run left values.reverse c = o := by
  induction h generalizing left with
  | ends hturn => rw [runMany_eq, hturn]
  | goes hturn hrest ih =>
    cases left with
    | zero => cases hrest <;> omega
    | succ left =>
      rw [runMany_eq, hturn]
      exact ih (by omega)

theorem Loops.unique {calls' : Nat} {o' : Outcome (List α)} (h : Loops p values c calls o)
    (h' : Loops p values c calls' o') : calls' = calls ∧ o' = o := by
  induction h generalizing calls' o' with
  | ends hturn =>
    cases h' with
    | ends hturn' => rw [hturn] at hturn'; cases hturn'; exact ⟨rfl, rfl⟩
    | goes hturn' _ => rw [hturn] at hturn'; cases hturn'
  | goes hturn _ ih =>
    cases h' with
    | ends hturn' => rw [hturn] at hturn'; cases hturn'
    | goes hturn' hrest =>
      rw [hturn] at hturn'
      cases hturn'
      obtain ⟨rfl, rfl⟩ := ih hrest
      exact ⟨rfl, rfl⟩

/-! ## The end of the loop -/

variable {as : List α}

/-- One call for each success that goes on, and one more. -/
theorem Ascent.loops (h : Ascent p text pos as last)
    (hend : turn p (values ++ as) (.ofText text last) = .ends o) :
    Loops p values (.ofText text pos) (as.length + 1) o := by
  induction h generalizing values with
  | here pos =>
    rw [List.append_nil] at hend
    exact .ends hend
  | @step pos mid _ a _ hlt hr _ ih =>
    have hne : (Cursor.ofText text mid).offset ≠ (Cursor.ofText text pos).offset := Nat.ne_of_gt hlt
    rw [List.append_cons] at hend
    refine .goes ?_ (ih hend)
    rw [turn, hr]
    simp only [if_neg hne]

theorem Onward.turn_ends (hp : p.Onward text) (hlast : last ≤ text.length)
    (hstalls : Stalls p text last) (values : List α) :
    ∃ o, turn p values (.ofText text last) = .ends o := by
  rw [turn]
  cases hr : p.run (.ofText text last) with
  | success a next =>
    obtain ⟨mid, hle, _, rfl⟩ := hp last hlast a next hr
    have hmid : mid = last := by
      by_contra hne
      exact hstalls a mid (by omega) hr
    exact ⟨_, if_pos hmid⟩
  | failure expected offset =>
    simp only
    split
    · exact ⟨_, rfl⟩
    · exact ⟨_, rfl⟩
  | overlong digits => exact ⟨_, rfl⟩

/-- An ascent is no longer than the text that is left, so the bound of a repetition allows it. -/
theorem Ascent.many_eq (h : Ascent p text pos as last) (hlast : last ≤ text.length)
    (hend : turn p as (.ofText text last) = .ends o) : (many p).run (.ofText text pos) = o := by
  have hlen := h.length_le
  have hloops : Loops p [] (.ofText text pos) (as.length + 1) o := h.loops hend
  refine hloops.runMany ?_
  rw [Cursor.length_rest_ofText]
  omega

theorem many1_run (p : Parser α) :
    (many1 p).run = ((p.andThen (many p)).map fun v => v.1 :: v.2).run := by
  funext c
  simp only [many1, Parser.map, Parser.andThen]
  cases p.run c with
  | success a next => exact (Outcome.map_map ((many p).run next) (a, ·) fun v => v.1 :: v.2).symm
  | failure expected offset => rfl
  | overlong digits => rfl

/-- In a text where the successes of a parser neither go back nor past the end, the loop ends, and it
calls the parser at most once for every character that is left and once more; a repetition gives what
the loop gives, as it does with any bound that allows those calls. There is one ascent that stalls: the
result has its values where the parser then fails at once, one value more where it then succeeds on
nothing, and is the failure itself where it fails elsewhere. A repetition of at least one is the parser
and then a repetition, with the first value in front. -/
theorem many_collects_ascent (hp : p.Onward text) (hpos : pos ≤ text.length) :
    let start := Cursor.ofText text pos
    let result := (many p).run start
    (∃ calls ≤ text.length - pos + 1, Loops p [] start calls result ∧
      (∀ calls' o, Loops p [] start calls' o → calls' = calls ∧ o = result) ∧
      ∀ left, calls ≤ left + 1 → runMany p.run left [] start = result) ∧
    (∃ as last, Ascent p text pos as last ∧ last ≤ text.length ∧ Stalls p text last ∧
      (∀ as' last', Ascent p text pos as' last' → Stalls p text last' → as' = as ∧ last' = last) ∧
      (∀ expected, p.run (.ofText text last) = .failure expected last →
        result = .success as (.ofText text last)) ∧
      (∀ a, p.run (.ofText text last) = .success a (.ofText text last) →
        result = .success (as ++ [a]) (.ofText text last)) ∧
      (∀ expected offset, p.run (.ofText text last) = .failure expected offset → offset ≠ last →
        result = .failure expected offset) ∧
      ∀ digits, p.run (.ofText text last) = .overlong digits → result = .overlong digits) ∧
    (many1 p).run = ((p.andThen (many p)).map fun v => v.1 :: v.2).run := by
  intro start result
  obtain ⟨as, last, hascent, hstalls, hlast⟩ := hp.exists_ascent hpos
  obtain ⟨o, hend⟩ := hp.turn_ends hlast hstalls as
  have hresult : result = o := hascent.many_eq hlast hend
  have hloops : Loops p [] start (as.length + 1) result := by
    rw [hresult]
    exact hascent.loops hend
  have hlen := hascent.length_le
  refine ⟨⟨as.length + 1, by omega, hloops, fun _ _ h => hloops.unique h,
    fun _ hleft => hloops.runMany hleft⟩, ?_, many1_run p⟩
  refine ⟨as, last, hascent, hlast, hstalls, ?_, ?_, ?_, ?_, ?_⟩
  · intro as' last' h hstalls'
    exact h.unique hstalls' hascent hstalls
  · intro expected hr
    refine hascent.many_eq hlast ?_
    rw [turn, hr]
    exact if_pos rfl
  · intro a hr
    refine hascent.many_eq hlast ?_
    rw [turn, hr]
    exact if_pos rfl
  · intro expected offset hr hne
    refine hascent.many_eq hlast ?_
    rw [turn, hr]
    exact if_neg hne
  · intro digits hr
    refine hascent.many_eq hlast ?_
    rw [turn, hr]

/-- Two letters, and then a success on nothing. -/
theorem many_collects_ascent_optional :
    let p := optional (char "a") 'z'
    let text := "aab".toList
    p.Onward text ∧ 0 ≤ text.length ∧
      (∃ calls ≤ 4, Loops p [] (.ofText text 0) calls
        (.success ['a', 'a', 'z'] (.ofText text 2))) ∧
      ∀ as last, Ascent p text 0 as last → Stalls p text last → as = ['a', 'a'] ∧ last = 2 := by
  intro p text
  have hp : p.Onward text := ((composed_char "a").optional 'z').isLocal.onward text
  have hpos : 0 ≤ text.length := Nat.zero_le _
  have hrun : (many p).run (.ofText text 0) = .success ['a', 'a', 'z'] (.ofText text 2) := by
    decide +kernel
  have hend : p.run (.ofText text 2) = .success 'z' (.ofText text 2) := by decide +kernel
  have hsecond : Ascent p text 1 ['a'] 2 :=
    .step Nat.one_lt_two (by decide +kernel) (.here 2)
  have hascent : Ascent p text 0 ['a', 'a'] 2 :=
    .step Nat.zero_lt_one (by decide +kernel) hsecond
  have hstalls : Stalls p text 2 := by
    intro a mid hlt hr
    rw [hend] at hr
    simp only [Outcome.success.injEq] at hr
    exact absurd (ofText_inj hr.2) (Nat.ne_of_lt hlt)
  obtain ⟨⟨calls, hcalls, hloops, _⟩, ⟨as, last, _, _, _, hunique, _⟩, _⟩ :=
    many_collects_ascent hp hpos
  rw [hrun] at hloops
  refine ⟨hp, hpos, ⟨calls, hcalls, hloops⟩, fun as' last' h hstalls' => ?_⟩
  obtain ⟨rfl, rfl⟩ := hunique _ _ hascent hstalls
  exact hunique as' last' h hstalls'

end Parser

end Dice
