import Mathlib.Data.List.Forall2
import Dice.Report
import Dice.Proofs.Parser.Taking
import Dice.Proofs.Text.Numeral

/-!
# Dice.Proofs.Report.Display

Steps as they are shown, and what one can read off them.

* `Event.marking` : which of the four marks an event is shown with.
* `Event.Alike` : events with the same value and the same marks.
* `alike_of_chars_append`, `alike_of_behind_append` : events that look alike are alike, whatever
  follows them in a text.
* `Showable` : a group that is a constant without marks, or that starts with something else.
* `alike_of_groupText_append` : the same of groups.
* `alike_of_stepsFrom` : steps that look alike show the same groups, with the same signs.
-/

namespace Dice

open Dice.Parser (Stops stops_cons stops_nil takeWhile_append_of_stops)

/-! ## Marks -/

/-- Replaced by another event, added by an explosion, dropped, or counted as a success. -/
structure Event.Marking where
  replaced : Bool
  exploded : Bool
  dropped : Bool
  successful : Bool
  deriving DecidableEq

def Event.marking (e : Event) : Event.Marking where
  replaced := e.isDiscarded && e.isDie && e.mark = .neutral
  exploded := e.origin = .explosion
  dropped := e.isDropped
  successful := e.mark = .success

/-- The same value with the same marks. -/
structure Event.Alike (e e' : Event) : Prop where
  value : e.value = e'.value
  marking : e.marking = e'.marking

namespace Event.Marking

/-- No mark at all. -/
def plain : Marking := ⟨false, false, false, false⟩

/-- The marks before and behind a value. -/
def around (m : Marking) : List Char × List Char :=
  let inner : List Char := if m.replaced then ['r'] else []
  let explosion : List Char := if m.exploded then ['_', '_'] else []
  let dropping : List Char := if m.dropped then ['~', '~'] else []
  let success : List Char := if m.successful then ['*', '*'] else []
  (success ++ dropping ++ explosion, inner ++ explosion ++ dropping ++ success)

theorem around_inj {m m' : Marking} (h : m.around.2 = m'.around.2) : m = m' := by
  obtain ⟨a, b, c, d⟩ := m
  obtain ⟨a', b', c', d'⟩ := m'
  revert h
  revert a b c d a' b' c' d'
  decide

end Event.Marking

theorem Event.marks_eq (e : Event) : e.marks = e.marking.around := by
  unfold marks Marking.around marking
  cases e.isDiscarded && e.isDie && decide (e.mark = .neutral) <;> simp

namespace Report

/-! ## One event -/

/-- The characters of marks in front of a value. -/
def isMark (c : Char) : Bool :=
  c = '*' || c = '~' || c = '_'

/-- The characters of a number. -/
def isFigure (c : Char) : Bool :=
  Text.isDigit c || c = '-'

/-- All characters that an event is shown with. -/
def isShown (c : Char) : Bool :=
  isFigure c || isMark c || c = 'r'

theorem append_inj_of_stops {accepts : Char → Bool} {u v s t : List Char}
    (hu : ∀ c ∈ u, accepts c = true) (hv : ∀ c ∈ v, accepts c = true) (hs : Stops accepts s)
    (ht : Stops accepts t) (h : u ++ s = v ++ t) : u = v ∧ s = t := by
  have huv : u = v := by
    rw [← takeWhile_append_of_stops hu hs, h, takeWhile_append_of_stops hv ht]
  subst huv
  exact ⟨rfl, List.append_cancel_left h⟩

theorem isFigure_of_mem_numeral {n : Int} {c : Char} (h : c ∈ Text.numeral n) :
    isFigure c = true := by
  have hdigit (h : c ∈ Nat.toDigits 10 n.natAbs) : isFigure c = true := by
    simp [isFigure, Text.isDigit_of_mem_toDigits h]
  unfold Text.numeral at h
  split at h
  · rcases List.mem_cons.mp h with rfl | h
    · rfl
    · exact hdigit h
  · exact hdigit h

theorem numeral_eq_toDigits {n : Int} (h : 0 ≤ n) : Text.numeral n = Nat.toDigits 10 n.natAbs := by
  rw [Text.numeral, if_neg (by omega)]

theorem numeral_eq_cons {n : Int} (h : n < 0) :
    Text.numeral n = '-' :: Nat.toDigits 10 n.natAbs := by
  rw [Text.numeral, if_pos h]

theorem toDigits_inj {m n : Nat} (h : Nat.toDigits 10 m = Nat.toDigits 10 n) : m = n := by
  rw [← Text.ofDigits_toDigits m, h, Text.ofDigits_toDigits]

/-- No run of digits starts with a minus. -/
theorem toDigits_ne_minus (n : Nat) (cs : List Char) : Nat.toDigits 10 n ≠ '-' :: cs := by
  intro h
  have hminus : '-' ∈ Nat.toDigits 10 n := h ▸ List.mem_cons_self
  exact absurd (Text.isDigit_of_mem_toDigits hminus) (by decide)

theorem numeral_inj {n n' : Int} (h : Text.numeral n = Text.numeral n') : n = n' := by
  rcases Int.lt_or_le n 0 with hn | hn <;> rcases Int.lt_or_le n' 0 with hn' | hn'
  · rw [numeral_eq_cons hn, numeral_eq_cons hn', List.cons.injEq] at h
    have habs := toDigits_inj h.2
    omega
  · rw [numeral_eq_cons hn, numeral_eq_toDigits hn'] at h
    exact absurd h.symm (toDigits_ne_minus _ _)
  · rw [numeral_eq_toDigits hn, numeral_eq_cons hn'] at h
    exact absurd h (toDigits_ne_minus _ _)
  · rw [numeral_eq_toDigits hn, numeral_eq_toDigits hn'] at h
    have habs := toDigits_inj h
    omega

theorem numeral_ne_nil (n : Int) : Text.numeral n ≠ [] := by
  unfold Text.numeral
  split
  · exact List.cons_ne_nil _ _
  · exact Nat.toDigits_ne_nil

/-- A number is no mark, so it ends the marks in front of it. -/
theorem stops_isMark_numeral (n : Int) (cs : List Char) : Stops isMark (Text.numeral n ++ cs) := by
  obtain ⟨c, ds, hds⟩ := List.exists_cons_of_ne_nil (numeral_ne_nil n)
  have hc : isFigure c = true := isFigure_of_mem_numeral (n := n) (hds ▸ List.mem_cons_self)
  rw [hds]
  refine stops_cons (Bool.eq_false_iff.mpr fun hmark => ?_)
  simp only [isMark, Bool.or_eq_true, decide_eq_true_eq] at hmark
  rcases hmark with (rfl | rfl) | rfl <;> revert hc <;> decide

theorem isMark_of_mem_around (m : Event.Marking) : ∀ c ∈ m.around.1, isMark c = true := by
  rw [← List.all_eq_true]
  rcases m with ⟨_ | _, _ | _, _ | _, _ | _⟩ <;> rfl

theorem isShown_of_mem_around (m : Event.Marking) : ∀ c ∈ m.around.2,
    isShown c = true ∧ isFigure c = false := by
  have hall : (m.around.2.all fun c => isShown c && !isFigure c) = true := by
    rcases m with ⟨_ | _, _ | _, _ | _, _ | _⟩ <;> rfl
  simpa [List.all_eq_true] using hall

theorem chars_eq (e : Event) :
    e.chars = e.marking.around.1 ++ (Text.numeral e.value ++ e.marking.around.2) := by
  rw [Event.chars, Event.marks_eq]

theorem isShown_of_mem_chars {e : Event} {c : Char} (h : c ∈ e.chars) : isShown c = true := by
  rw [chars_eq] at h
  rcases List.mem_append.mp h with h | h
  · simp [isShown, isMark_of_mem_around _ c h]
  rcases List.mem_append.mp h with h | h
  · simp [isShown, isFigure_of_mem_numeral h]
  · exact (isShown_of_mem_around _ c h).1

/-- What stands in front of the number are marks, and what stands behind it are no figures. -/
theorem alike_of_chars {e e' : Event} (h : e.chars = e'.chars) : e.Alike e' := by
  rw [chars_eq, chars_eq] at h
  have hstops (e : Event) : Stops isFigure e.marking.around.2 := by
    intro c hc
    exact (isShown_of_mem_around _ c (List.mem_of_head? hc)).2
  have hinner := (append_inj_of_stops (isMark_of_mem_around _) (isMark_of_mem_around _)
    (stops_isMark_numeral _ _) (stops_isMark_numeral _ _) h).2
  obtain ⟨hvalue, hmarks⟩ := append_inj_of_stops (fun _ => isFigure_of_mem_numeral)
    (fun _ => isFigure_of_mem_numeral) (hstops e) (hstops e') hinner
  exact ⟨numeral_inj hvalue, Event.Marking.around_inj hmarks⟩

theorem alike_of_chars_append {e e' : Event} {s s' : List Char} (hs : Stops isShown s)
    (hs' : Stops isShown s') (h : e.chars ++ s = e'.chars ++ s') : e.Alike e' ∧ s = s' := by
  obtain ⟨hchars, hrest⟩ := append_inj_of_stops (fun _ => isShown_of_mem_chars)
    (fun _ => isShown_of_mem_chars) hs hs' h
  exact ⟨alike_of_chars hchars, hrest⟩

/-! ## One group -/

/-- The events behind the first one of a group in brackets, up to the closing bracket. -/
def behind : List Event → List Char
  | [] => [')']
  | e :: events => ',' :: ' ' :: (e.chars ++ behind events)

theorem stops_isShown_behind (events : List Event) (s : List Char) :
    Stops isShown (behind events ++ s) := by
  cases events with
  | nil => exact stops_cons (by decide)
  | cons e events => exact stops_cons (by decide)

theorem alike_of_behind_append {events events' : List Event} {s s' : List Char}
    (h : behind events ++ s = behind events' ++ s') :
    List.Forall₂ Event.Alike events events' ∧ s = s' := by
  induction events generalizing events' with
  | nil =>
    cases events' with
    | nil => exact ⟨.nil, (List.cons.inj h).2⟩
    | cons e' events' => exact absurd (List.cons.inj h).1 (by decide)
  | cons e events ih =>
    cases events' with
    | nil => exact absurd (List.cons.inj h).1 (by decide)
    | cons e' events' =>
      simp only [behind, List.cons_append, List.append_assoc, List.cons.injEq, true_and] at h
      obtain ⟨halike, hrest⟩ :=
        alike_of_chars_append (stops_isShown_behind _ _) (stops_isShown_behind _ _) h
      obtain ⟨hevents, hs⟩ := ih hrest
      exact ⟨.cons halike hevents, hs⟩

theorem toList_text (e : Event) : e.text.toList = e.chars :=
  String.toList_ofList

theorem toList_commaSeparated (e : Event) (events : List Event) :
    (Text.commaSeparated ((e :: events).map Event.text)).toList ++ [')'] =
      e.chars ++ behind events := by
  rw [Text.commaSeparated]
  induction events generalizing e with
  | nil => simp [behind, toList_text]
  | cons e' events ih =>
    rw [List.map_cons, List.map_cons, String.intercalate_cons_cons, ← List.map_cons,
      String.toList_append, String.toList_append, List.append_assoc, ih, toList_text]
    simp [behind]

theorem toList_groupText {e : Event} (he : e.isConstant = false) (events : List Event) :
    (groupText (e :: events)).toList = '(' :: (e.chars ++ behind events) := by
  have hbrackets : groupText (e :: events) =
      "(" ++ Text.commaSeparated ((e :: events).map Event.text) ++ ")" := by
    cases events with
    | nil => simp [groupText, he, Text.commaSeparated]
    | cons e' events => rfl
  rw [hbrackets, ← toList_commaSeparated]
  simp

/-- A lone constant is shown bare, so it must look like no group in brackets. -/
inductive Showable : List Event → Prop where
  | constant {e : Event} : e.isConstant = true → 0 ≤ e.value → e.marking = .plain → Showable [e]
  | dice {e : Event} (events : List Event) : e.isConstant = false → Showable (e :: events)

theorem Showable.ne_nil {events : List Event} (h : Showable events) : events ≠ [] := by
  cases h <;> exact List.cons_ne_nil _ _

theorem toList_groupText_constant {e : Event} (he : e.isConstant = true) (hv : 0 ≤ e.value)
    (hm : e.marking = .plain) : (groupText [e]).toList = Nat.toDigits 10 e.value.natAbs := by
  rw [groupText, if_pos he, toList_text, chars_eq, hm, numeral_eq_toDigits hv]
  simp [Event.Marking.around, Event.Marking.plain]

/-- A digit or a bracket comes first. -/
theorem Showable.exists_cons {events : List Event} (h : Showable events) :
    ∃ c cs, (groupText events).toList = c :: cs ∧ (Text.isDigit c = true ∨ c = '(') := by
  cases h with
  | @constant e he hv hm =>
    obtain ⟨c, cs, hcs⟩ := List.exists_cons_of_ne_nil (Nat.toDigits_ne_nil (n := e.value.natAbs))
    rw [toList_groupText_constant he hv hm]
    exact ⟨c, cs, hcs, .inl (Text.isDigit_of_mem_toDigits (hcs ▸ List.mem_cons_self))⟩
  | @dice e events he => exact ⟨'(', _, toList_groupText he events, .inr rfl⟩

/-- A number and a bracket are not taken for each other. -/
theorem toDigits_append_ne {n : Nat} {s cs : List Char} :
    Nat.toDigits 10 n ++ s ≠ '(' :: cs := by
  obtain ⟨c, ds, hds⟩ := List.exists_cons_of_ne_nil (Nat.toDigits_ne_nil (n := n) (b := 10))
  have hc : Text.isDigit c = true := Text.isDigit_of_mem_toDigits (hds ▸ List.mem_cons_self)
  rw [hds]
  intro h
  obtain rfl : c = '(' := (List.cons.inj h).1
  exact absurd hc (by decide)

theorem alike_of_groupText_append {events events' : List Event} (he : Showable events)
    (he' : Showable events') {s s' : List Char} (hs : Stops Text.isDigit s)
    (hs' : Stops Text.isDigit s')
    (h : (groupText events).toList ++ s = (groupText events').toList ++ s') :
    List.Forall₂ Event.Alike events events' ∧ s = s' := by
  cases he with
  | constant hc hv hm =>
    rw [toList_groupText_constant hc hv hm] at h
    cases he' with
    | constant hc' hv' hm' =>
      rw [toList_groupText_constant hc' hv' hm'] at h
      obtain ⟨hdigits, hrest⟩ := append_inj_of_stops (fun _ => Text.isDigit_of_mem_toDigits)
        (fun _ => Text.isDigit_of_mem_toDigits) hs hs' h
      have habs := toDigits_inj hdigits
      exact ⟨.cons ⟨by omega, hm.trans hm'.symm⟩ .nil, hrest⟩
    | dice events' hd' =>
      rw [toList_groupText hd'] at h
      exact absurd h toDigits_append_ne
  | dice events hd =>
    rw [toList_groupText hd] at h
    cases he' with
    | constant hc' hv' hm' =>
      rw [toList_groupText_constant hc' hv' hm'] at h
      exact absurd h.symm toDigits_append_ne
    | dice events' hd' =>
      rw [toList_groupText hd', List.cons_append, List.cons_append, List.append_assoc,
        List.append_assoc, List.cons.injEq] at h
      obtain ⟨halike, hrest⟩ :=
        alike_of_chars_append (stops_isShown_behind _ _) (stops_isShown_behind _ _) h.2
      obtain ⟨hevents, hs⟩ := alike_of_behind_append hrest
      exact ⟨.cons halike hevents, hs⟩

/-! ## All groups -/

/-- The sign that a group is shown with. -/
def shownSign (events : List Event) : Sign :=
  if groupSign? events = some .minus then .minus else .plus

def leadChars (atStart : Bool) (sign : Sign) : List Char :=
  match atStart, sign with
  | true, .minus => ['-']
  | true, .plus => []
  | false, .minus => [' ', '-', ' ']
  | false, .plus => [' ', '+', ' ']

theorem toList_groupLead (atStart : Bool) (events : List Event) :
    (groupLead atStart (groupSign? events)).toList = leadChars atStart (shownSign events) := by
  unfold shownSign
  cases atStart <;> rcases groupSign? events with _ | _ | _ <;> rfl

theorem toList_stepsFrom_cons (atStart : Bool) (events : List Event) (rest : List (List Event)) :
    (stepsFrom atStart (events :: rest)).toList = leadChars atStart (shownSign events) ++
      ((groupText events).toList ++ (stepsFrom false rest).toList) := by
  rw [stepsFrom, String.toList_append, String.toList_append, toList_groupLead, List.append_assoc]

theorem stops_stepsFrom (rest : List (List Event)) :
    Stops Text.isDigit (stepsFrom false rest).toList := by
  cases rest with
  | nil => exact stops_nil _
  | cons events rest =>
    rw [toList_stepsFrom_cons]
    cases shownSign events <;> exact stops_cons (by decide)

/-- What follows the sign starts with a digit or a bracket. -/
theorem leadChars_inj {atStart : Bool} {sign sign' : Sign} {events events' : List Event}
    (he : Showable events) (he' : Showable events') {s s' : List Char}
    (h : leadChars atStart sign ++ ((groupText events).toList ++ s) =
      leadChars atStart sign' ++ ((groupText events').toList ++ s')) :
    sign = sign' ∧ (groupText events).toList ++ s = (groupText events').toList ++ s' := by
  obtain ⟨c, cs, hcs, hc⟩ := he.exists_cons
  obtain ⟨c', cs', hcs', hc'⟩ := he'.exists_cons
  have hminus {c : Char} (hc : Text.isDigit c = true ∨ c = '(') : c ≠ '-' := by
    rintro rfl
    revert hc
    decide
  rw [hcs, hcs'] at h ⊢
  cases atStart with
  | false =>
    cases sign <;> cases sign'
    case plus.plus | minus.minus => simpa [leadChars] using h
    case plus.minus | minus.plus => simp [leadChars] at h
  | true =>
    cases sign <;> cases sign' <;> simp only [leadChars, List.cons_append, List.nil_append] at h
    case plus.plus => exact ⟨rfl, h⟩
    case plus.minus => exact absurd (List.cons.inj h).1 (hminus hc)
    case minus.plus => exact absurd (List.cons.inj h).1.symm (hminus hc')
    case minus.minus => exact ⟨rfl, (List.cons.inj h).2⟩

theorem stepsFrom_cons_ne_nil {atStart : Bool} {events : List Event} (he : Showable events)
    (rest : List (List Event)) : (stepsFrom atStart (events :: rest)).toList ≠ [] := by
  obtain ⟨c, cs, hcs, _⟩ := he.exists_cons
  rw [toList_stepsFrom_cons, hcs]
  simp

/-- Sign by sign and group by group. -/
theorem alike_of_stepsFrom {atStart : Bool} {lists lists' : List (List Event)}
    (hl : ∀ events ∈ lists, Showable events) (hl' : ∀ events ∈ lists', Showable events)
    (h : (stepsFrom atStart lists).toList = (stepsFrom atStart lists').toList) :
    List.Forall₂ (fun events events' => shownSign events = shownSign events' ∧
      List.Forall₂ Event.Alike events events') lists lists' := by
  induction lists generalizing atStart lists' with
  | nil =>
    cases lists' with
    | nil => exact .nil
    | cons events' rest' =>
      exact absurd h.symm (stepsFrom_cons_ne_nil (hl' _ List.mem_cons_self) rest')
  | cons events rest ih =>
    cases lists' with
    | nil => exact absurd h (stepsFrom_cons_ne_nil (hl _ List.mem_cons_self) rest)
    | cons events' rest' =>
      obtain ⟨he, hrest⟩ := List.forall_mem_cons.mp hl
      obtain ⟨he', hrest'⟩ := List.forall_mem_cons.mp hl'
      rw [toList_stepsFrom_cons, toList_stepsFrom_cons] at h
      obtain ⟨hsign, hgroups⟩ := leadChars_inj he he' h
      obtain ⟨halike, hlater⟩ :=
        alike_of_groupText_append he he' (stops_stepsFrom rest) (stops_stepsFrom rest') hgroups
      exact .cons ⟨hsign, halike⟩ (ih hrest hrest' hlater)

end Report

end Dice
