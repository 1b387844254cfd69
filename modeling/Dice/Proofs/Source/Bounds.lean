import Dice.Proofs.Source.Ranged
import Dice.Source.Bounds

/-!
# Dice.Proofs.Source.Bounds

What a draw leaves of its source, whatever it is given for its bounds.

* `Source.eq_of_next_error` : a request without an answer changes nothing.
* `Source.requestsOf_cases` : a draw makes one request, or those of an array, which are in range.
* `Source.asked`, `Source.Unfit` : what a draw asks for, and draws that come to no integer.
* `Source.next_cases` : so a draw that is refused changes nothing either, unless its bounds are arrays
  and all of their draws were made.
-/

namespace Dice

open Draws (Asked)

namespace Source

/-! ## Requests -/

theorem next_script_cases {values : List Int} {index : Nat} {r : Request}
    {answer : Except SourceError Int} {s' : Source}
    (h : RandomSource.next (Source.script values index) r = (answer, s')) :
    (∃ value, answer = .ok value ∧ index < values.length ∧ s' = .script values (index + 1)) ∨
      ∃ e, answer = .error e ∧ s' = .script values index := by
  simp only [RandomSource.next, Source.answer] at h
  cases hvalue : values[index]? with
  | some value =>
    rw [hvalue] at h
    cases h
    exact .inl ⟨value, rfl, (List.getElem?_eq_some_iff.mp hvalue).1, rfl⟩
  | none => rw [hvalue] at h; cases h; exact .inr ⟨_, rfl, rfl⟩

theorem next_twister_cases {seed : Option Nat} {state : Twister} {r : Request}
    {answer : Except SourceError Int} {s' : Source}
    (h : RandomSource.next (Source.twister seed state) r = (answer, s')) :
    (∃ value state', answer = .ok value ∧ s' = .twister seed state') ∨
      ∃ e, answer = .error e ∧ s' = .twister seed state := by
  simp only [RandomSource.next, Source.answer] at h
  cases hrange : Source.rangeError? r with
  | some e => rw [hrange] at h; cases h; exact .inr ⟨e, rfl, rfl⟩
  | none => rw [hrange] at h; cases h; exact .inl ⟨_, _, rfl, rfl⟩

theorem eq_of_next_error {s s' : Source} {r : Request} {e : SourceError}
    (h : RandomSource.next s r = (.error e, s')) : s' = s := by
  cases s with
  | script =>
    rcases next_script_cases h with ⟨_, hok, _⟩ | ⟨_, _, heq⟩
    · cases hok
    · exact heq
  | twister =>
    rcases next_twister_cases h with ⟨_, _, hok, _⟩ | ⟨_, _, heq⟩
    · cases hok
    · exact heq

/-! ## Ranges -/

/-- Repeating rows makes no new numbers. -/
theorem mem_of_mem_spread {shape wide : List Nat} {numbers : List Int} {n : Int}
    (h : n ∈ Grid.spread shape wide numbers) : n ∈ numbers := by
  induction shape generalizing wide numbers with
  | nil => simpa [Grid.spread] using h
  | cons rows shape ih =>
    cases wide with
    | nil => simpa [Grid.spread] using h
    | cons most wide =>
      rw [Grid.spread] at h
      split at h
      · obtain ⟨_, _, hrow⟩ := List.mem_flatMap.mp h
        exact List.mem_of_mem_drop (List.mem_of_mem_take (ih hrow))
      · obtain ⟨row, hrow, hn⟩ := List.mem_flatten.mp h
        rw [List.eq_of_mem_replicate hrow] at hn
        exact ih hn

theorem mem_of_ranges? {low high : Grid} {ranges : List Request}
    (h : low.ranges? high = some ranges) {r : Request} (hr : r ∈ ranges) :
    r.low ∈ low.numbers ∧ r.high ∈ high.numbers := by
  obtain ⟨shape, _, rfl⟩ := Option.map_eq_some_iff.mp h
  obtain ⟨i, hi, hget⟩ := List.mem_iff_getElem.mp hr
  rw [List.getElem_zipWith] at hget
  subst hget
  exact ⟨mem_of_mem_spread (List.getElem_mem _), mem_of_mem_spread (List.getElem_mem _)⟩

theorem gridRanges_inRange {low high : Grid} {ranges : List Request}
    (h : gridRanges low high = .ok ranges) : ∀ r ∈ ranges, rangeError? r = none := by
  unfold gridRanges at h
  split at h
  · cases h
  · rename_i hlow
    split at h
    · cases h
    · rename_i hhigh
      split at h
      · cases h
      · rename_i hranges
        split at h
        · cases h
        · rename_i hempty
          cases h
          intro r hr
          obtain ⟨hmem, hmem'⟩ := mem_of_ranges? hranges hr
          rw [List.any_eq_true] at hlow hhigh hempty
          have hlow : ¬ r.low < -halfRange := fun h => hlow ⟨_, hmem, decide_eq_true h⟩
          have hhigh : ¬ halfRange < r.high := fun h => hhigh ⟨_, hmem', decide_eq_true h⟩
          have hempty : ¬ r.high ≤ r.low := fun h => hempty ⟨r, hr, decide_eq_true h⟩
          rw [rangeError?, if_neg hlow, if_neg hhigh, if_neg hempty]

theorem arrayRanges_inRange {low high : Datum} {ranges : List Request}
    (h : arrayRanges low high = .ok ranges) : ∀ r ∈ ranges, rangeError? r = none := by
  unfold arrayRanges at h
  split at h
  · cases h
  · cases h
  · exact gridRanges_inRange h

theorem rangesOf_cases {low high : Datum} {ranges : List Request}
    (h : rangesOf low high = .ok ranges) :
    (∃ r, ranges = [r]) ∨
      (low.isList || high.isList) = true ∧ ∀ r ∈ ranges, rangeError? r = none := by
  unfold rangesOf at h
  split at h
  · rename_i hlist
    exact .inr ⟨hlist, arrayRanges_inRange h⟩
  · split at h
    · cases h
    · cases h
    · cases h
      exact .inl ⟨_, rfl⟩

/-- The ends that are not given are no arrays. -/
theorem any_isList_of_endsOf {bounds : List Datum} {low high : Datum}
    (h : endsOf bounds = .ok (low, high)) (hlist : (low.isList || high.isList) = true) :
    bounds.any Datum.isList = true := by
  match bounds, h with
  | [], h => cases h; cases hlist
  | [_], h => cases h; simpa [Datum.isList] using hlist
  | [_, _], h => cases h; simpa using hlist

theorem requestsOf_cases {s : Source} {bounds : List Datum} {requests : List Request}
    (h : s.requestsOf bounds = .ok requests) :
    (∃ r, requests = [r]) ∨
      s.IsTwister ∧ bounds.any Datum.isList = true ∧ ∀ r ∈ requests, rangeError? r = none := by
  unfold requestsOf at h
  split at h
  · cases h
  · cases h
    exact .inl ⟨_, rfl⟩
  · rename_i hends
    refine (rangesOf_cases h).imp_right fun ⟨hlist, hrange⟩ => ⟨⟨_, _, rfl⟩, ?_, hrange⟩
    refine any_isList_of_endsOf hends ?_
    simpa [Datum.isList] using hlist
  · rename_i hends
    refine (rangesOf_cases h).imp_right fun ⟨hlist, hrange⟩ => ⟨⟨_, _, rfl⟩, ?_, hrange⟩
    exact any_isList_of_endsOf hends hlist

/-! ## Draws -/

/-- Requests in range are all answered. -/
theorem answerAll_inRange {requests : List Request} (h : ∀ r ∈ requests, rangeError? r = none)
    {s : Source} (hs : s.IsTwister) :
    ∃ answers s', answerAll requests s = (.ok answers, s') ∧ answers.length = requests.length ∧
      Asked s requests requests s' := by
  induction requests generalizing s with
  | nil => exact ⟨[], s, rfl, rfl, .none⟩
  | cons r requests ih =>
    obtain ⟨hr, hrest⟩ := List.forall_mem_cons.mp h
    obtain ⟨value, s', hnext, hs'⟩ := ranged_isTwister.answers hs hr
    obtain ⟨answers, s'', hall, hlen, hasked⟩ := ih hrest hs'
    have hanswer : s.answer r = (.ok value, s') := hnext
    refine ⟨value :: answers, s'', ?_, congrArg (· + 1) hlen, .more hnext hasked⟩
    simp only [answerAll, hanswer, hall, Except.map]

def asked (s : Source) (bounds : List Datum) : List Request :=
  match s.requestsOf bounds with
  | .ok requests => requests
  | .error _ => []

/-- Arrays were given for bounds, and all of their draws were made, but they are not one. -/
structure Unfit (s : Source) (bounds : List Datum) (answered : List Request) : Prop where
  array : bounds.any Datum.isList = true
  answered : answered = s.asked bounds
  count : (s.asked bounds).length ≠ 1

theorem next_cases {s s' : Source} {bounds : List Datum} {answer : Except DrawError Int}
    (h : s.next bounds = (answer, s')) :
    ∃ answered, Asked s (s.asked bounds) answered s' ∧
      ∀ e, answer = .error e → s' = s ∨ e = .notSingle ∧ s.Unfit bounds answered := by
  unfold Source.next at h
  cases hrequests : s.requestsOf bounds with
  | error e =>
    have hnone : s.asked bounds = [] := by simp only [asked, hrequests]
    rw [hrequests] at h
    cases h
    refine ⟨[], ?_, fun _ _ => .inl rfl⟩
    rw [hnone]
    exact .none
  | ok requests =>
    obtain rfl : s.asked bounds = requests := by simp only [asked, hrequests]
    simp only [hrequests] at h
    rcases requestsOf_cases hrequests with ⟨r, hone⟩ | ⟨hs, hlist, hrange⟩
    · rw [hone] at h ⊢
      cases hanswer : s.answer r with
      | mk given left =>
        cases given with
        | error e =>
          simp only [answerAll, hanswer] at h
          cases h
          exact ⟨[], .failed hanswer, fun _ _ => .inl (eq_of_next_error hanswer)⟩
        | ok value =>
          simp only [answerAll, hanswer, Except.map] at h
          cases h
          exact ⟨[r], .more hanswer .none, nofun⟩
    · obtain ⟨answers, left, hall, hlen, hasked⟩ := answerAll_inRange hrange hs
      simp only [hall] at h
      split at h
      · rename_i heq
        cases heq
      · rename_i heq
        cases heq
        cases h
        exact ⟨_, hasked, nofun⟩
      · rename_i hnot heq
        cases heq
        cases h
        refine ⟨_, hasked, fun e he => .inr ⟨(Except.error.inj he).symm, hlist, rfl, ?_⟩⟩
        intro hone
        rw [← hlen, List.length_eq_one_iff] at hone
        obtain ⟨n, rfl⟩ := hone
        exact hnot n rfl

end Source

end Dice
