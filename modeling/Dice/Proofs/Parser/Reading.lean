import Dice.Parser.Basic
import Mathlib.Data.List.TakeWhile

/-!
# Dice.Proofs.Parser.Reading

What a parser has read, whenever it succeeds.

* `Cursor.before` : the cursor of a text of some size in front of what is left of it.
* `ShortRuns` : a text without a run of digits that is too long to be read.
* `Parser.Reads p L` : whatever `p` reads is a word of the language `L`, with the value that it has
  there, and `p` reads on behind that word; a number too long is found only where there is one.
* `reads_map`, `reads_andThen`, `reads_many` and the like : one rule for each combinator.
-/

namespace Dice

namespace Parser

/-- The place in a text of a given size where some of it is left. -/
def Cursor.before (size : Nat) (rest : List Char) : Cursor :=
  ⟨size - rest.length, rest, false⟩

theorem Cursor.advance_before {size : Nat} (used : List Char) {left : List Char}
    (h : (used ++ left).length ≤ size) :
    (Cursor.before size (used ++ left)).advance used.length = .before size left := by
  simp only [List.length_append] at h
  simp only [before, advance, List.drop_left, List.length_append, Cursor.mk.injEq, and_true]
  omega

theorem Cursor.advance_takeWhile {size : Nat} {rest : List Char} (h : rest.length ≤ size)
    (accepts : Char → Bool) :
    (Cursor.before size rest).advance (rest.takeWhile accepts).length =
      .before size (rest.dropWhile accepts) := by
  have hsplit : rest.takeWhile accepts ++ rest.dropWhile accepts = rest :=
    List.takeWhile_append_dropWhile
  rw [← hsplit] at h
  have hadv := Cursor.advance_before _ h
  rwa [hsplit] at hadv

theorem Cursor.offset_before_eq_iff {size : Nat} {rest rest' : List Char} (h : rest.length ≤ size)
    (h' : rest'.length ≤ size) :
    (Cursor.before size rest').offset = (Cursor.before size rest).offset ↔
      rest'.length = rest.length := by
  simp only [before]
  omega

theorem Cursor.ofText_eq_before {text : List Char} {offset : Nat} (h : offset ≤ text.length) :
    Cursor.ofText text offset = .before text.length (text.drop offset) := by
  simp only [ofText, before, List.length_drop, Cursor.mk.injEq, true_and, decide_eq_false_iff_not]
  omega

/-- No run of digits is longer than what can be read. -/
def ShortRuns (cs : List Char) : Prop :=
  ∀ ds, ds <:+: cs → (∀ c ∈ ds, Text.isDigit c = true) → ds.length ≤ Text.digitLimit

theorem shortRuns_of_length_le {cs : List Char} (h : cs.length ≤ Text.digitLimit) :
    ShortRuns cs := by
  intro ds hds _
  exact Nat.le_trans hds.length_le h

theorem ShortRuns.of_append {used left : List Char} (h : ShortRuns (used ++ left)) :
    ShortRuns left := by
  intro ds hds
  exact h ds (hds.trans (List.suffix_append used left).isInfix)

/-! ## Languages -/

section Languages

variable {α : Type}

def Blanks (cs : List Char) : Prop :=
  ∀ c ∈ cs, Text.isBlank c = true

theorem blanks_nil : Blanks [] :=
  fun _ hc => absurd hc List.not_mem_nil

theorem blanks_append {u v : List Char} (hu : Blanks u) (hv : Blanks v) : Blanks (u ++ v) := by
  intro c hc
  rcases List.mem_append.mp hc with hc | hc
  · exact hu c hc
  · exact hv c hc

/-- A run of digits that is not zero, and not too long to be read. -/
inductive Number : List Char → Nat → Prop where
  | intro {ds : List Char} : ds ≠ [] → (∀ c ∈ ds, Text.isDigit c = true) →
      ds.length ≤ Text.digitLimit → 0 < Text.ofDigits ds → Number ds (Text.ofDigits ds)

/-- A word with blanks around it. -/
inductive Spaced (L : List Char → α → Prop) : List Char → α → Prop where
  | intro {u v w : List Char} {a : α} : Blanks u → L v a → Blanks w → Spaced L (u ++ (v ++ w)) a

/-- Any number of words, one after another. -/
inductive Repeated (L : List Char → α → Prop) : List Char → List α → Prop where
  | nil : Repeated L [] []
  | cons {u v : List Char} {a : α} {as : List α} :
      L u a → Repeated L v as → Repeated L (u ++ v) (a :: as)

end Languages

/-! ## Parsers for languages -/

variable {α β : Type}

/-- A success is a word of the language at the front of what was left; a number too long is found
only where there is one. -/
def Outcome.Reads (size : Nat) (rest : List Char) (L : List Char → α → Prop) : Outcome α → Prop
  | .success a next => ∃ used left, rest = used ++ left ∧ next = .before size left ∧ L used a
  | .failure _ _ => True
  | .overlong _ => ¬ ShortRuns rest

def Reads (p : Parser α) (L : List Char → α → Prop) : Prop :=
  ∀ size rest, rest.length ≤ size → (p.run (.before size rest)).Reads size rest L

variable {L : List Char → α → Prop} {M : List Char → β → Prop}

theorem Outcome.Reads.mono {size : Nat} {rest : List Char} {L' : List Char → α → Prop}
    (hL : ∀ u a, L u a → L' u a) {o : Outcome α} (h : o.Reads size rest L) :
    o.Reads size rest L' := by
  cases o with
  | success a next =>
    obtain ⟨used, left, hrest, hnext, hu⟩ := h
    exact ⟨used, left, hrest, hnext, hL used a hu⟩
  | failure expected offset => trivial
  | overlong digits => exact h

theorem Reads.mono {p : Parser α} {L' : List Char → α → Prop} (h : p.Reads L)
    (hL : ∀ u a, L u a → L' u a) : p.Reads L' :=
  fun size rest hs => (h size rest hs).mono hL

theorem Reads.success {p : Parser α} (h : p.Reads L) {size : Nat} {rest : List Char} {a : α}
    {next : Cursor} (hs : rest.length ≤ size) (hr : p.run (.before size rest) = .success a next) :
    ∃ used left, rest = used ++ left ∧ next = .before size left ∧ L used a := by
  have ho := h size rest hs
  rwa [hr] at ho

theorem Reads.not_overlong {p : Parser α} (h : p.Reads L) {size digits : Nat} {rest : List Char}
    (hs : rest.length ≤ size) (hshort : ShortRuns rest) :
    p.run (.before size rest) ≠ .overlong digits := by
  intro hr
  have ho := h size rest hs
  rw [hr] at ho
  exact ho hshort

/-! ## Leaves -/

theorem reads_satisfy (accepts : Char → Bool) (expected : String) :
    (satisfy accepts expected).Reads fun u c => u = [c] ∧ accepts c = true := by
  intro size rest hs
  cases rest with
  | nil => trivial
  | cons c rest =>
    simp only [satisfy, Cursor.before]
    split
    · rename_i hc
      exact ⟨[c], rest, rfl, Cursor.advance_before [c] hs, rfl, hc⟩
    · trivial

theorem reads_string (wanted : String) :
    (string wanted).Reads fun u s => u = wanted.toList ∧ s = wanted := by
  intro size rest hs
  simp only [string]
  split
  · rename_i hp
    simp only [Cursor.before, Bool.and_eq_true, List.isPrefixOf_iff_prefix] at hp
    obtain ⟨left, rfl⟩ := hp.1
    exact ⟨wanted.toList, left, rfl, Cursor.advance_before _ hs, rfl, rfl⟩
  · trivial

theorem reads_whitespace : whitespace.Reads fun u _ => Blanks u := by
  intro size rest hs
  exact ⟨rest.takeWhile Text.isBlank, rest.dropWhile Text.isBlank,
    List.takeWhile_append_dropWhile.symm, Cursor.advance_takeWhile hs _,
    fun c hc => List.mem_takeWhile_imp hc⟩

theorem reads_endOfInput : endOfInput.Reads fun u _ => u = [] := by
  intro size rest hs
  simp only [endOfInput]
  split
  · exact ⟨[], rest, rfl, rfl, rfl⟩
  · trivial

theorem reads_positiveInt : positiveInt.Reads Number := by
  intro size rest hs
  have hdigits : ∀ c ∈ rest.takeWhile Text.isDigit, Text.isDigit c = true :=
    fun c hc => List.mem_takeWhile_imp hc
  simp only [positiveInt, Cursor.before]
  split
  · trivial
  · rename_i hne
    split
    · rename_i hlong
      intro hshort
      have hrun := hshort _ (List.takeWhile_prefix _).isInfix hdigits
      omega
    · rename_i hlen
      split
      · trivial
      · rename_i hpos
        refine ⟨rest.takeWhile Text.isDigit, rest.dropWhile Text.isDigit,
          List.takeWhile_append_dropWhile.symm, Cursor.advance_takeWhile hs _, ?_⟩
        exact .intro (by simpa using hne) hdigits (by omega) (by omega)

/-! ## Combinators -/

theorem reads_map (f : α → β) {p : Parser α} (hp : p.Reads L) :
    (p.map f).Reads fun u b => ∃ a, L u a ∧ f a = b := by
  intro size rest hs
  have h := hp size rest hs
  simp only [map]
  cases hr : p.run (.before size rest) with
  | success a next =>
    rw [hr] at h
    obtain ⟨used, left, hrest, hnext, hL⟩ := h
    exact ⟨used, left, hrest, hnext, a, hL, rfl⟩
  | failure expected offset => trivial
  | overlong digits => rw [hr] at h; exact h

theorem reads_andThen {p : Parser α} {q : Parser β} (hp : p.Reads L) (hq : q.Reads M) :
    (p.andThen q).Reads fun u ab => ∃ v w, u = v ++ w ∧ L v ab.1 ∧ M w ab.2 := by
  intro size rest hs
  have h := hp size rest hs
  simp only [andThen]
  cases hr : p.run (.before size rest) with
  | success a mid =>
    rw [hr] at h
    obtain ⟨v, left, rfl, rfl, hL⟩ := h
    have hleft : left.length ≤ size := by simp only [List.length_append] at hs; omega
    have h' := hq size left hleft
    cases hr' : q.run (.before size left) with
    | success b next =>
      rw [hr'] at h'
      obtain ⟨w, left', rfl, rfl, hM⟩ := h'
      simp only [hr']
      exact ⟨v ++ w, left', by simp, rfl, v, w, rfl, hL, hM⟩
    | failure expected offset => simp only [hr']; trivial
    | overlong digits =>
      rw [hr'] at h'
      simp only [hr']
      exact fun hshort => h' hshort.of_append
  | failure expected offset => trivial
  | overlong digits => rw [hr] at h; exact h

theorem reads_attempt {p : Parser α} (hp : p.Reads L) : (attempt p).Reads L := by
  intro size rest hs
  have h := hp size rest hs
  simp only [attempt]
  cases hr : p.run (.before size rest) with
  | success a next => rw [hr] at h; exact h
  | failure expected offset => trivial
  | overlong digits => rw [hr] at h; exact h

theorem reads_optional {p : Parser α} (hp : p.Reads L) (default : α) :
    (optional p default).Reads fun u a => L u a ∨ u = [] ∧ a = default := by
  intro size rest hs
  have h := hp size rest hs
  simp only [optional]
  cases hr : p.run (.before size rest) with
  | success a next => rw [hr] at h; exact h.mono fun _ _ => .inl
  | failure expected offset => exact ⟨[], rest, rfl, rfl, .inr ⟨rfl, rfl⟩⟩
  | overlong digits => rw [hr] at h; exact h

theorem reads_runFirst {ps : List (Parser α)} (hps : ∀ p ∈ ps, p.Reads L) (expected : String)
    {size : Nat} {rest : List Char} (hs : rest.length ≤ size) :
    (runFirst expected ps (.before size rest)).Reads size rest L := by
  induction ps with
  | nil => trivial
  | cons p ps ih =>
    obtain ⟨hp, hrest⟩ := List.forall_mem_cons.mp hps
    have h := hp size rest hs
    simp only [runFirst]
    cases hr : p.run (.before size rest) with
    | success a next => rw [hr] at h; exact h
    | failure expected' offset =>
      simp only
      split
      · exact ih hrest
      · trivial
    | overlong digits => rw [hr] at h; exact h

/-- All choices read words of one language. -/
theorem reads_alternative {ps : List (Parser α)} (hps : ∀ p ∈ ps, p.Reads L) :
    (alternative ps).Reads L :=
  fun _ _ hs => reads_runFirst hps _ hs

/-- Values are gathered newest first. -/
theorem reads_runMany {p : Parser α} (hp : p.Reads L) (count : Nat) (values : List α) {size : Nat}
    {rest : List Char} (hs : rest.length ≤ size) :
    (runMany p.run count values (.before size rest)).Reads size rest fun u as =>
      ∃ more, Repeated L u more ∧ as = values.reverse ++ more := by
  induction count generalizing values rest with
  | zero =>
    have h := hp size rest hs
    rw [runMany]
    cases hr : p.run (.before size rest) with
    | success a next =>
      rw [hr] at h
      obtain ⟨used, left, hrest, hnext, hL⟩ := h
      -- the bound is reached, but the value that has just been read still counts
      have hword : ∃ more, Repeated L used more ∧ (a :: values).reverse = values.reverse ++ more :=
        ⟨[a], by simpa using Repeated.cons hL .nil, by simp⟩
      simp only [ite_self]
      exact ⟨used, left, hrest, hnext, hword⟩
    | failure expected offset =>
      simp only
      split
      · exact ⟨[], rest, rfl, rfl, [], .nil, by simp⟩
      · trivial
    | overlong digits => rw [hr] at h; exact h
  | succ count ih =>
    have h := hp size rest hs
    rw [runMany]
    cases hr : p.run (.before size rest) with
    | success a next =>
      rw [hr] at h
      obtain ⟨used, left, rfl, rfl, hL⟩ := h
      simp only
      split
      · exact ⟨used, left, rfl, rfl, [a], by simpa using Repeated.cons hL .nil, by simp⟩
      · have hleft : left.length ≤ size := by simp only [List.length_append] at hs; omega
        have h' := ih (a :: values) hleft
        cases hr' : runMany p.run count (a :: values) (.before size left) with
        | success as next =>
          rw [hr'] at h'
          obtain ⟨used', left', rfl, rfl, more, hmore, rfl⟩ := h'
          exact ⟨used ++ used', left', by simp, rfl, a :: more, .cons hL hmore, by simp⟩
        | failure expected offset => trivial
        | overlong digits =>
          rw [hr'] at h'
          exact fun hshort => h' hshort.of_append
    | failure expected offset =>
      simp only
      split
      · exact ⟨[], rest, rfl, rfl, [], .nil, by simp⟩
      · trivial
    | overlong digits => rw [hr] at h; exact h

theorem reads_many {p : Parser α} (hp : p.Reads L) : (many p).Reads (Repeated L) := by
  intro size rest hs
  refine (reads_runMany hp rest.length [] hs).mono ?_
  rintro u as ⟨more, hmore, rfl⟩
  exact hmore

theorem reads_token {p : Parser α} (hp : p.Reads L) : (token p).Reads (Spaced L) := by
  refine reads_attempt ?_
  refine (reads_map _ (reads_andThen (reads_andThen reads_whitespace hp) reads_whitespace)).mono ?_
  rintro u a ⟨_, ⟨_, w, rfl, ⟨u, v, rfl, hu, hv⟩, hw⟩, rfl⟩
  rw [List.append_assoc]
  exact .intro hu hv hw

end Parser

end Dice
