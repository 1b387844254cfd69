import Dice.Proofs.Parser.Composed

/-!
# Dice.Proofs.Parser.Shifting

Parsers answer by what stands ahead of them, and within it.

* `Cursor.shift`, `Outcome.shift` : a place and an answer in a text with more in front of it.
* `Outcome.Inside c` : an answer at the cursor `c` or ahead of it, and not past the end of the text.
* `Parser.Local p` : every answer of `p` is such a one, and where the text stands does not matter.
* `local_satisfy`, `Local.map` and the like : one rule for each leaf and each combinator.
* `Composed.isLocal` : so all parsers that are made of these are local.
* `answers_inside_and_shifted` : the same, of texts and offsets.
-/

namespace Dice

namespace Parser

variable {α β : Type}

/-! ## Places -/

/-- The same place with a number of characters put in front of the text. -/
def Cursor.shift (count : Nat) (c : Cursor) : Cursor :=
  { c with offset := count + c.offset }

@[simp] theorem Cursor.shift_offset (count : Nat) (c : Cursor) :
    (c.shift count).offset = count + c.offset :=
  rfl

@[simp] theorem Cursor.shift_rest (count : Nat) (c : Cursor) : (c.shift count).rest = c.rest :=
  rfl

@[simp] theorem Cursor.shift_pastEnd (count : Nat) (c : Cursor) :
    (c.shift count).pastEnd = c.pastEnd :=
  rfl

@[simp] theorem Cursor.shift_atEnd (count : Nat) (c : Cursor) : (c.shift count).atEnd = c.atEnd :=
  rfl

@[simp] theorem Cursor.shift_advance (count n : Nat) (c : Cursor) :
    (c.shift count).advance n = (c.advance n).shift count := by
  simp [advance, shift, Nat.add_assoc]

theorem Cursor.ofText_append (u text : List Char) (offset : Nat) :
    ofText (u ++ text) (u.length + offset) = (ofText text offset).shift u.length := by
  simp [ofText, shift]

@[simp] theorem Cursor.advance_zero (c : Cursor) : c.advance 0 = c :=
  rfl

theorem Cursor.advance_advance (c : Cursor) (m n : Nat) :
    (c.advance m).advance n = c.advance (m + n) := by
  simp [advance, Nat.add_assoc]

/-! ## Answers -/

def Outcome.shift (count : Nat) : Outcome α → Outcome α
  | .success a next => .success a (next.shift count)
  | .failure expected offset => .failure expected (count + offset)
  | .overlong digits => .overlong digits

theorem Outcome.shift_map (count : Nat) (o : Outcome α) (f : α → β) :
    (o.shift count).map f = (o.map f).shift count := by
  cases o <;> rfl

/-- All combinators look at an answer like this, so it is enough to shift what they make of it. -/
theorem Outcome.shift_elim {count : Nat} {s s' : α → Cursor → Outcome β}
    {f f' : String → Nat → Outcome β} (o : Outcome α)
    (hs : ∀ a next, s a (next.shift count) = (s' a next).shift count)
    (hf : ∀ expected offset, f expected (count + offset) = (f' expected offset).shift count) :
    (match o.shift count with
      | .success a next => s a next
      | .failure expected offset => f expected offset
      | .overlong digits => .overlong digits) =
    Outcome.shift count (match o with
      | .success a next => s' a next
      | .failure expected offset => f' expected offset
      | .overlong digits => .overlong digits) := by
  cases o with
  | success a next => exact hs a next
  | failure expected offset => exact hf expected offset
  | overlong digits => rfl

/-- Nothing is read twice, nothing behind the end of the text is read, and no failure is reported
elsewhere. -/
inductive Outcome.Inside (c : Cursor) : Outcome α → Prop where
  | success {a : α} {n : Nat} : n ≤ c.rest.length → Inside c (.success a (c.advance n))
  | failure {expected : String} {offset : Nat} : c.offset ≤ offset →
      offset ≤ c.offset + c.rest.length → Inside c (.failure expected offset)
  | overlong {digits : Nat} : Inside c (.overlong digits)

theorem Outcome.Inside.stays {c : Cursor} {a : α} : Inside c (.success a c) :=
  .success (Nat.zero_le c.rest.length)

theorem Outcome.Inside.start {c : Cursor} {expected : String} :
    Inside (α := α) c (.failure expected c.offset) :=
  .failure (Nat.le_refl _) (Nat.le_add_right _ _)

theorem Outcome.Inside.of_advance {c : Cursor} {n : Nat} {o : Outcome α} (hn : n ≤ c.rest.length)
    (h : o.Inside (c.advance n)) : o.Inside c := by
  have hlen : (c.advance n).rest.length = c.rest.length - n := List.length_drop
  have hoffset : (c.advance n).offset = c.offset + n := rfl
  cases h with
  | success hm =>
    rw [Cursor.advance_advance]
    exact .success (by omega)
  | failure hle hge => exact .failure (by omega) (by omega)
  | overlong => exact .overlong

theorem Outcome.Inside.map {c : Cursor} {o : Outcome α} (h : o.Inside c) (f : α → β) :
    (o.map f).Inside c := by
  cases h with
  | success hn => exact .success hn
  | failure hle hge => exact .failure hle hge
  | overlong => exact .overlong

theorem Outcome.Inside.elim {c : Cursor} {o : Outcome α} (h : o.Inside c)
    {s : α → Cursor → Outcome β} {f : String → Nat → Outcome β}
    (hs : ∀ a n, n ≤ c.rest.length → (s a (c.advance n)).Inside c)
    (hf : ∀ expected offset, c.offset ≤ offset → offset ≤ c.offset + c.rest.length →
      (f expected offset).Inside c) :
    Outcome.Inside c (match o with
      | .success a next => s a next
      | .failure expected offset => f expected offset
      | .overlong digits => .overlong digits) := by
  cases h with
  | success hn => exact hs _ _ hn
  | failure hle hge => exact hf _ _ hle hge
  | overlong => exact .overlong

/-- Nothing but the text ahead of a place matters to the answer there. -/
structure Local (p : Parser α) : Prop where
  inside : ∀ c, (p.run c).Inside c
  shift : ∀ count c, p.run (c.shift count) = (p.run c).shift count

theorem Local.exists_advance {p : Parser α} (hp : p.Local) {c next : Cursor} {a : α}
    (hr : p.run c = .success a next) : ∃ n, n ≤ c.rest.length ∧ next = c.advance n := by
  have hinside := hp.inside c
  rw [hr] at hinside
  cases hinside with
  | success hn => exact ⟨_, hn, rfl⟩

/-! ## Leaves -/

theorem local_satisfy (accepts : Char → Bool) (expected : String) :
    (satisfy accepts expected).Local where
  inside c := by
    simp only [satisfy]
    split
    · exact .start
    · rename_i head rest hrest
      split
      · exact .success (by simp [hrest])
      · exact .start
  shift count c := by
    simp only [satisfy, Cursor.shift_rest, Cursor.shift_advance]
    split
    · rfl
    · split <;> rfl

theorem local_string (wanted : String) : (string wanted).Local where
  inside c := by
    simp only [string]
    split
    · rename_i hfound
      simp only [Bool.and_eq_true, List.isPrefixOf_iff_prefix] at hfound
      exact .success hfound.1.length_le
    · exact .start
  shift count c := by
    simp only [string, Cursor.shift_rest, Cursor.shift_pastEnd, Cursor.shift_advance]
    split <;> rfl

theorem local_whitespace : whitespace.Local where
  inside _ := .success (List.takeWhile_prefix _).length_le
  shift count c := congrArg _ (Cursor.shift_advance count _ c)

theorem local_endOfInput : endOfInput.Local where
  inside c := by
    simp only [endOfInput]
    split
    · exact .stays
    · exact .start
  shift count c := by
    cases hend : c.atEnd <;> simp [endOfInput, hend, Outcome.shift]

theorem local_positiveInt : positiveInt.Local where
  inside c := by
    simp only [positiveInt]
    split
    · exact .start
    · split
      · exact .overlong
      · split
        · exact .start
        · exact .success (List.takeWhile_prefix _).length_le
  shift count c := by
    simp only [positiveInt, Cursor.shift_rest, Cursor.shift_advance]
    split
    · rfl
    · split
      · rfl
      · split <;> rfl

/-! ## Combinators -/

variable {p : Parser α} {q : Parser β} {ps : List (Parser α)}

theorem Local.map (hp : p.Local) (f : α → β) : (p.map f).Local where
  inside c := (hp.inside c).map f
  shift count c := by
    simp only [Parser.map, hp.shift]
    exact (p.run c).shift_map count f

theorem Local.andThen (hp : p.Local) (hq : q.Local) : (p.andThen q).Local where
  inside c := (hp.inside c).elim (fun _ _ hn => ((hq.inside _).map _).of_advance hn)
    fun _ _ => .failure
  shift count c := by
    simp only [Parser.andThen, hp.shift]
    refine Outcome.shift_elim _ (fun a next => ?_) fun _ _ => rfl
    rw [hq.shift, Outcome.shift_map]

theorem Local.attempt (hp : p.Local) : (attempt p).Local where
  inside c := (hp.inside c).elim (fun _ _ => .success) fun _ _ _ _ => .start
  shift count c := by
    simp only [Parser.attempt, hp.shift]
    exact Outcome.shift_elim _ (fun _ _ => rfl) fun _ _ => rfl

theorem Local.optional (hp : p.Local) (default : α) : (optional p default).Local where
  inside c := (hp.inside c).elim (fun _ _ => .success) fun _ _ _ _ => .stays
  shift count c := by
    simp only [Parser.optional, hp.shift]
    exact Outcome.shift_elim _ (fun _ _ => rfl) fun _ _ => rfl

theorem local_sequence (hps : ∀ p ∈ ps, p.Local) : (sequence ps).Local := by
  induction ps with
  | nil => exact ⟨fun _ => .stays, fun _ _ => rfl⟩
  | cons p ps ih =>
    obtain ⟨hp, hrest⟩ := List.forall_mem_cons.mp hps
    have ih := ih hrest
    constructor
    · intro c
      exact (hp.inside c).elim (fun _ _ hn => ((ih.inside _).map _).of_advance hn) fun _ _ => .failure
    · intro count c
      simp only [Parser.sequence, runAll, hp.shift]
      refine Outcome.shift_elim _ (fun a next => ?_) fun _ _ => rfl
      exact (congrArg _ (ih.shift count next)).trans (Outcome.shift_map _ _ _)

theorem inside_runFirst (hps : ∀ p ∈ ps, p.Local) (expected : String) (c : Cursor) :
    (runFirst expected ps c).Inside c := by
  induction ps with
  | nil => exact .start
  | cons p ps ih =>
    obtain ⟨hp, hrest⟩ := List.forall_mem_cons.mp hps
    refine (hp.inside c).elim (fun _ _ => .success) fun _ _ hle hge => ?_
    split
    · exact ih hrest
    · exact .failure hle hge

theorem shift_runFirst (hps : ∀ p ∈ ps, p.Local) (expected : String) (count : Nat) (c : Cursor) :
    runFirst expected ps (c.shift count) = (runFirst expected ps c).shift count := by
  induction ps with
  | nil => rfl
  | cons p ps ih =>
    obtain ⟨hp, hrest⟩ := List.forall_mem_cons.mp hps
    simp only [runFirst, hp.shift]
    refine Outcome.shift_elim _ (fun _ _ => rfl) fun expected' offset => ?_
    simp only [Cursor.shift_offset, Nat.add_left_cancel_iff, ih hrest]
    split <;> rfl

theorem local_alternative (hps : ∀ p ∈ ps, p.Local) : (alternative ps).Local :=
  ⟨inside_runFirst hps _, shift_runFirst hps _⟩

/-- What ends a repetition is a failure at its start, or one ahead. -/
theorem inside_stop {c : Cursor} (values : List α) {expected : String} {offset : Nat}
    (hle : c.offset ≤ offset) (hge : offset ≤ c.offset + c.rest.length) :
    Outcome.Inside c (if offset = c.offset then .success values.reverse c
      else .failure expected offset) := by
  split
  · exact .stays
  · exact .failure hle hge

theorem Local.inside_runMany (hp : p.Local) (left : Nat) (values : List α) (c : Cursor) :
    (runMany p.run left values c).Inside c := by
  induction left generalizing values c with
  | zero =>
    rw [runMany]
    refine (hp.inside c).elim (fun _ _ hn => ?_) fun _ _ => inside_stop values
    split <;> exact .success hn
  | succ left ih =>
    rw [runMany]
    refine (hp.inside c).elim (fun _ _ hn => ?_) fun _ _ => inside_stop values
    split
    · exact .success hn
    · exact (ih _ _).of_advance hn

theorem Local.shift_runMany (hp : p.Local) (count left : Nat) (values : List α) (c : Cursor) :
    runMany p.run left values (c.shift count) = (runMany p.run left values c).shift count := by
  have hstop (values : List α) (c : Cursor) (expected : String) (offset : Nat) :
      (if count + offset = (c.shift count).offset then .success values.reverse (c.shift count)
        else .failure expected (count + offset)) =
      Outcome.shift count (if offset = c.offset then .success values.reverse c
        else .failure expected offset) := by
    simp only [Cursor.shift_offset, Nat.add_left_cancel_iff]
    split <;> rfl
  induction left generalizing values c with
  | zero =>
    rw [runMany, runMany, hp.shift]
    refine Outcome.shift_elim _ (fun a next => ?_) (hstop values c)
    simp only [ite_self]
    rfl
  | succ left ih =>
    rw [runMany, runMany, hp.shift]
    refine Outcome.shift_elim _ (fun a next => ?_) (hstop values c)
    simp only [Cursor.shift_offset, Nat.add_left_cancel_iff, ih]
    split <;> rfl

theorem Local.many (hp : p.Local) : (many p).Local :=
  ⟨fun c => hp.inside_runMany c.rest.length [] c,
    fun count c => hp.shift_runMany count c.rest.length [] c⟩

theorem Local.many1 (hp : p.Local) : (many1 p).Local where
  inside c := (hp.inside c).elim (fun _ _ hn => ((hp.many.inside _).map _).of_advance hn)
    fun _ _ => .failure
  shift count c := by
    simp only [Parser.many1, hp.shift]
    refine Outcome.shift_elim _ (fun a next => ?_) fun _ _ => rfl
    rw [hp.many.shift, Outcome.shift_map]

/-! ## All of them -/

theorem Composed.isLocal (hp : p.Composed) : p.Local := by
  induction hp with
  | satisfy accepts expected => exact local_satisfy accepts expected
  | string wanted => exact local_string wanted
  | whitespace => exact local_whitespace
  | endOfInput => exact local_endOfInput
  | positiveInt => exact local_positiveInt
  | map _ f ih => exact ih.map f
  | andThen _ _ ihp ihq => exact ihp.andThen ihq
  | sequence _ ih => exact local_sequence ih
  | alternative _ ih => exact local_alternative ih
  | attempt _ ih => exact ih.attempt
  | optional _ default ih => exact ih.optional default
  | many _ ih => exact ih.many
  | many1 _ ih => exact ih.many1

/-- An answer is neither in front of the place that it is asked for nor past the end of the text, or
past that place if it is past the end already. Characters put in front of the text change nothing but
the offsets, by their number; a number too long to be read is as long as before. -/
theorem answers_inside_and_shifted (hp : p.Composed) (u text : String) (pos : Nat) :
    let here := p.run (.ofText text.toList pos)
    let there := p.run (.ofText (u ++ text).toList (u.length + pos))
    (∀ a next, here = .success a next →
      pos ≤ next.offset ∧ next.offset ≤ max pos text.length ∧
        ∃ next', there = .success a next' ∧ next'.offset = u.length + next.offset) ∧
    (∀ expected offset, here = .failure expected offset →
      pos ≤ offset ∧ offset ≤ max pos text.length ∧
        there = .failure expected (u.length + offset)) ∧
    ∀ digits, here = .overlong digits → there = .overlong digits := by
  intro here there
  have hthere : there = here.shift u.length := by
    rw [← hp.isLocal.shift, ← String.length_toList, ← Cursor.ofText_append,
      ← String.toList_append, String.length_toList]
  have hinside : here.Inside (.ofText text.toList pos) := hp.isLocal.inside _
  have hrest : (Cursor.ofText text.toList pos).rest.length = text.length - pos := by
    rw [Cursor.ofText, List.length_drop, String.length_toList]
  have hoffset : (Cursor.ofText text.toList pos).offset = pos := rfl
  refine ⟨?_, ?_, ?_⟩
  · intro a next hr
    rw [hr] at hthere hinside
    obtain ⟨n, hn, rfl⟩ : ∃ n, n ≤ (Cursor.ofText text.toList pos).rest.length ∧
        next = (Cursor.ofText text.toList pos).advance n := by
      cases hinside with
      | success hn => exact ⟨_, hn, rfl⟩
    have hnext : ((Cursor.ofText text.toList pos).advance n).offset = pos + n := rfl
    exact ⟨by omega, by omega, _, hthere, rfl⟩
  · intro expected offset hr
    rw [hr] at hthere hinside
    cases hinside with
    | failure hle hge => exact ⟨by omega, by omega, hthere⟩
  · intro digits hr
    rw [hr] at hthere
    exact hthere

/-- Two numbers, and then no end of the input. -/
theorem answers_inside_and_shifted_numbers :
    let p := (many (token positiveInt)).andThen endOfInput
    p.Composed ∧ p.run (.ofText "x 12 7 y".toList 1) = .failure "end of input" 7 ∧
      p.run (.ofText ("ab" ++ "x 12 7 y").toList ("ab".length + 1)) =
        .failure "end of input" ("ab".length + 7) := by
  intro p
  have hp : p.Composed := (Composed.token .positiveInt).many.andThen .endOfInput
  have hr : p.run (.ofText "x 12 7 y".toList 1) = .failure "end of input" 7 := by decide +kernel
  exact ⟨hp, hr, ((answers_inside_and_shifted hp "ab" "x 12 7 y" 1).2.1 _ _ hr).2.2⟩

end Parser

end Dice
