import Dice.Proofs.Parser.Taking

/-!
# Dice.Proofs.Parser.Advancing

Parsers only go on in a text, and nothing but a number too long to be read stops them.

* `LongRun cs count` : the text has a run of so many digits, which is too long.
* `Parser.Advances p` : wherever it starts, `p` leaves an end of what there was, or it fails, or it
  is stopped by a long run of digits that stands there.
* `advances_satisfy`, `Advances.map` and the like : one rule for each leaf and each combinator.
* `Parser.Balks p cs count` : in front of this text `p` is stopped by so many digits.
* `balks_positiveInt`, `Balks.map` and the like : nothing recovers from that.
-/

namespace Dice

namespace Parser

variable {α β : Type}

/-! ## Runs of digits -/

def LongRun (cs : List Char) (count : Nat) : Prop :=
  Text.digitLimit < count ∧
    ∃ ds, ds <:+: cs ∧ (∀ c ∈ ds, Text.isDigit c = true) ∧ ds.length = count

theorem LongRun.of_suffix {cs cs' : List Char} {count : Nat} (h : LongRun cs count)
    (hs : cs <:+ cs') : LongRun cs' count := by
  obtain ⟨hlong, ds, hds, hdigits, hlen⟩ := h
  exact ⟨hlong, ds, hds.trans hs.isInfix, hdigits, hlen⟩

/-! ## What is left of a text -/

inductive Outcome.Ahead (rest : List Char) : Outcome α → Prop where
  | success {a : α} {next : Cursor} : next.rest <:+ rest → Ahead rest (.success a next)
  | failure {expected : String} {offset : Nat} : Ahead rest (.failure expected offset)
  | overlong {count : Nat} : LongRun rest count → Ahead rest (.overlong count)

def Advances (p : Parser α) : Prop :=
  ∀ c, (p.run c).Ahead c.rest

theorem Outcome.Ahead.of_suffix {o : Outcome α} {rest rest' : List Char} (h : o.Ahead rest)
    (hs : rest <:+ rest') : o.Ahead rest' := by
  cases h with
  | success hnext => exact .success (hnext.trans hs)
  | failure => exact .failure
  | overlong hlong => exact .overlong (hlong.of_suffix hs)

theorem Outcome.Ahead.map {o : Outcome α} {rest : List Char} (h : o.Ahead rest) (f : α → β) :
    (o.map f).Ahead rest := by
  cases h with
  | success hnext => exact .success hnext
  | failure => exact .failure
  | overlong hlong => exact .overlong hlong

theorem Advances.longRun {p : Parser α} {c : Cursor} {count : Nat} (hp : p.Advances)
    (h : p.run c = .overlong count) : LongRun c.rest count := by
  have hahead := hp c
  rw [h] at hahead
  cases hahead with
  | overlong hlong => exact hlong

/-- All combinators look at an answer like this: nothing is done about a number too long. -/
theorem Outcome.Ahead.elim {o : Outcome α} {rest : List Char} (h : o.Ahead rest)
    {onSuccess : α → Cursor → Outcome β} {onFailure : String → Nat → Outcome β}
    (hsuccess : ∀ (a : α) (next : Cursor), next.rest <:+ rest → (onSuccess a next).Ahead rest)
    (hfailure : ∀ expected offset, (onFailure expected offset).Ahead rest) :
    Outcome.Ahead rest (match o with
      | .success a next => onSuccess a next
      | .failure expected offset => onFailure expected offset
      | .overlong count => .overlong count) := by
  cases h with
  | success hnext => exact hsuccess _ _ hnext
  | failure => exact hfailure _ _
  | overlong hlong => exact .overlong hlong

/-! ## Leaves -/

theorem Cursor.rest_advance_suffix (c : Cursor) (count : Nat) :
    (c.advance count).rest <:+ c.rest :=
  List.drop_suffix count c.rest

theorem advances_satisfy (accepts : Char → Bool) (expected : String) :
    (satisfy accepts expected).Advances := by
  intro c
  simp only [satisfy]
  split
  · exact .failure
  · split
    · exact .success (c.rest_advance_suffix 1)
    · exact .failure

theorem advances_string (wanted : String) : (string wanted).Advances := by
  intro c
  simp only [string]
  split
  · exact .success (c.rest_advance_suffix _)
  · exact .failure

theorem advances_whitespace : whitespace.Advances :=
  fun c => .success (c.rest_advance_suffix _)

theorem advances_endOfInput : endOfInput.Advances := by
  intro c
  simp only [endOfInput]
  split
  · exact .success List.suffix_rfl
  · exact .failure

/-- The only parser that can be stopped. -/
theorem advances_positiveInt : positiveInt.Advances := by
  intro c
  have hdigits : ∀ d ∈ c.rest.takeWhile Text.isDigit, Text.isDigit d = true :=
    fun d hd => List.mem_takeWhile_imp hd
  simp only [positiveInt]
  split
  · exact .failure
  · split
    · rename_i hlong
      exact .overlong ⟨hlong, _, (List.takeWhile_prefix _).isInfix, hdigits, rfl⟩
    · split
      · exact .failure
      · exact .success (c.rest_advance_suffix _)

/-! ## Combinators -/

variable {p : Parser α} {q : Parser β}

theorem Advances.map (hp : p.Advances) (f : α → β) : (p.map f).Advances :=
  fun c => (hp c).map f

theorem Advances.andThen (hp : p.Advances) (hq : q.Advances) : (p.andThen q).Advances :=
  fun c => (hp c).elim (fun _ next hnext => ((hq next).map _).of_suffix hnext) fun _ _ => .failure

theorem Advances.attempt (hp : p.Advances) : (attempt p).Advances :=
  fun c => (hp c).elim (fun _ _ => .success) fun _ _ => .failure

theorem Advances.optional (hp : p.Advances) (default : α) : (optional p default).Advances :=
  fun c => (hp c).elim (fun _ _ => .success) fun _ _ => .success List.suffix_rfl

theorem Advances.token (hp : p.Advances) : (token p).Advances :=
  (((advances_whitespace.andThen hp).andThen advances_whitespace).map _).attempt

theorem advances_runAll {ps : List (Parser α)} (hps : ∀ p ∈ ps, p.Advances) (c : Cursor) :
    (runAll ps c).Ahead c.rest := by
  induction ps generalizing c with
  | nil => exact .success List.suffix_rfl
  | cons p ps ih =>
    obtain ⟨hp, hrest⟩ := List.forall_mem_cons.mp hps
    refine (hp c).elim (fun _ next hnext => ?_) fun _ _ => .failure
    exact ((ih hrest next).map _).of_suffix hnext

theorem advances_sequence {ps : List (Parser α)} (hps : ∀ p ∈ ps, p.Advances) :
    (sequence ps).Advances :=
  advances_runAll hps

theorem advances_runFirst {ps : List (Parser α)} (hps : ∀ p ∈ ps, p.Advances) (expected : String)
    (c : Cursor) : (runFirst expected ps c).Ahead c.rest := by
  induction ps with
  | nil => exact .failure
  | cons p ps ih =>
    obtain ⟨hp, hrest⟩ := List.forall_mem_cons.mp hps
    refine (hp c).elim (fun _ _ => .success) fun _ _ => ?_
    split
    · exact ih hrest
    · exact .failure

theorem advances_alternative {ps : List (Parser α)} (hps : ∀ p ∈ ps, p.Advances) :
    (alternative ps).Advances :=
  advances_runFirst hps _

/-- Each success goes on behind the one before. -/
theorem Advances.runMany (hp : p.Advances) (left : Nat) (values : List α) (c : Cursor) :
    (runMany p.run left values c).Ahead c.rest := by
  have hfailure (values : List α) (c : Cursor) (expected : String) (offset : Nat) :
      Outcome.Ahead c.rest (if offset = c.offset then .success values.reverse c
        else .failure expected offset) := by
    split
    · exact .success List.suffix_rfl
    · exact .failure
  induction left generalizing values c with
  | zero =>
    rw [Parser.runMany]
    refine (hp c).elim (fun _ _ hnext => ?_) (hfailure values c)
    split <;> exact .success hnext
  | succ left ih =>
    rw [Parser.runMany]
    refine (hp c).elim (fun _ next hnext => ?_) (hfailure values c)
    split
    · exact .success hnext
    · exact (ih _ next).of_suffix hnext

theorem Advances.many (hp : p.Advances) : (many p).Advances :=
  fun c => hp.runMany c.rest.length [] c

theorem Advances.many1 (hp : p.Advances) : (many1 p).Advances :=
  fun c => (hp c).elim (fun _ next hnext => ((hp.many next).map _).of_suffix hnext)
    fun _ _ => .failure

/-! ## Numbers that are too long -/

/-- Whatever the size of the text in front. -/
def Balks (p : Parser α) (cs : List Char) (count : Nat) : Prop :=
  ∀ size, cs.length ≤ size → p.run (.before size cs) = .overlong count

variable {cs mid : List Char} {count : Nat} {a : α}

theorem balks_positiveInt {ds : List Char} (hdigits : ∀ c ∈ ds, Text.isDigit c = true)
    (hlong : Text.digitLimit < ds.length) (hcs : Stops Text.isDigit cs) :
    positiveInt.Balks (ds ++ cs) ds.length := by
  intro size _
  have hrun := takeWhile_append_of_stops hdigits hcs
  have hne : ds ≠ [] := List.ne_nil_of_length_pos (by omega)
  simp only [positiveInt, Cursor.before, hrun]
  rw [if_neg (by simpa using hne), if_pos hlong]

theorem Balks.map (h : p.Balks cs count) (f : α → β) : (p.map f).Balks cs count := by
  intro size hs
  simp only [Parser.map, h size hs, Outcome.map]

theorem Balks.andThen (h : p.Balks cs count) (q : Parser β) : (p.andThen q).Balks cs count := by
  intro size hs
  simp only [Parser.andThen, h size hs]

theorem Takes.andThen_balks (h : p.Takes cs a mid) (hq : q.Balks mid count) :
    (p.andThen q).Balks cs count := by
  intro size hs
  simp only [Parser.andThen, h.2 size hs, hq size (Nat.le_trans h.1 hs), Outcome.map]

theorem Balks.attempt (h : p.Balks cs count) : (attempt p).Balks cs count := by
  intro size hs
  simp only [Parser.attempt, h size hs]

theorem Balks.optional (h : p.Balks cs count) (default : α) :
    (optional p default).Balks cs count := by
  intro size hs
  simp only [Parser.optional, h size hs]

theorem Balks.token (h : p.Balks (Text.trimStart cs) count) : (token p).Balks cs count :=
  ((((takes_whitespace cs).andThen_balks h).andThen whitespace).map _).attempt

theorem Balks.alternative_cons (h : p.Balks cs count) (ps : List (Parser α)) :
    (alternative (p :: ps)).Balks cs count := by
  intro size hs
  simp only [Parser.alternative, runFirst, h size hs]

end Parser

end Dice
