import Mathlib.Data.List.Forall2
import Mathlib.Data.List.Pairwise
import Dice.Proofs.Parser.Failing
import Dice.Proofs.Parser.Lexing
import Dice.Proofs.Parser.Shifting

/-!
# Dice.Proofs.Parser.Choosing

Choices of which at most one can be made.

* `Parser.Begins p starts` : whatever `p` reads begins, behind blanks, with one of some texts.
* `not_succeeds_both` : two parsers do not both succeed if none of their texts begins another.
* `Outcome.Clean` : a success that goes on in the text, or a failure that has not.
* `Opens` : a token with its texts; it runs clean where no run of digits is too long.
* `success_alternative_iff` : of such choices the order does not matter.
* `Chain`, `Exhausts` : successes of some parsers one after another, up to where all of them fail.
* `exhausts_many` : these are what a repetition reads, and there are no others.
-/

namespace Dice

namespace Parser

variable {α β : Type} {p : Parser α} {q : Parser β} {ps : List (Parser α)} {c : Cursor}

def Succeeds (p : Parser α) (c : Cursor) : Prop :=
  ∃ a next, p.run c = .success a next

/-! ## How parsers begin -/

/-- The text that it begins with is read. -/
def Begins (p : Parser α) (starts : List (List Char)) : Prop :=
  ∀ c a next, p.run c = .success a next →
    ∃ s ∈ starts, s <+: Text.trimStart c.rest ∧ c.offset + s.length ≤ next.offset

/-- Of two texts neither begins the other. -/
abbrev Incomparable (s t : List Char) : Prop :=
  ¬ s <+: t ∧ ¬ t <+: s

variable {S T : List (List Char)}

/-- What is read begins with both texts, so one of them begins the other. -/
theorem not_succeeds_both (hp : p.Begins S) (hq : q.Begins T) (h : ∀ s ∈ S, ∀ t ∈ T, Incomparable s t)
    (c : Cursor) : ¬ (p.Succeeds c ∧ q.Succeeds c) := by
  rintro ⟨⟨a, next, hr⟩, ⟨b, next', hr'⟩⟩
  obtain ⟨s, hs, hsc, _⟩ := hp c a next hr
  obtain ⟨t, ht, htc, _⟩ := hq c b next' hr'
  obtain ⟨hst, hts⟩ := h s hs t ht
  rcases List.prefix_or_prefix_of_prefix hsc htc with hpre | hpre
  · exact hst hpre
  · exact hts hpre

theorem Begins.mono (hp : p.Begins S) (hST : S ⊆ T) : p.Begins T := by
  intro c a next hr
  obtain ⟨s, hs, hsc⟩ := hp c a next hr
  exact ⟨s, hST hs, hsc⟩

theorem begins_string {wanted : String} (hw : Solid wanted.toList) :
    (string wanted).Begins [wanted.toList] := by
  intro c a next hr
  simp only [string] at hr
  split at hr
  · rename_i hfound
    cases hr
    simp only [Bool.and_eq_true, List.isPrefixOf_iff_prefix] at hfound
    obtain ⟨left, hleft⟩ := hfound.1
    refine ⟨wanted.toList, List.mem_cons_self, ?_, Nat.le_refl _⟩
    rw [← hleft, hw.trimStart_append]
    exact List.prefix_append _ _
  · cases hr

theorem begins_char {wanted : String} {d : Char} (hw : wanted.toList = [d])
    (hd : Text.isBlank d = false) : (char wanted).Begins [[d]] := by
  intro c a next hr
  simp only [char, satisfy, hw] at hr
  split at hr
  · cases hr
  · rename_i head rest hrest
    split at hr
    · rename_i hhead
      obtain rfl : a = d := by
        cases hr
        simpa using hhead
      have hsolid : Solid [a] := ⟨a, [], rfl, hd⟩
      have htrim : Text.trimStart (a :: rest) = a :: rest := hsolid.trimStart_append rest
      cases hr
      refine ⟨[a], List.mem_cons_self, ?_, Nat.le_refl _⟩
      rw [hrest, htrim]
      exact List.prefix_append [a] rest
    · cases hr

theorem Begins.map (hp : p.Begins S) (f : α → β) : (p.map f).Begins S := by
  intro c b next hr
  simp only [Parser.map] at hr
  cases ha : p.run c with
  | success a mid => rw [ha] at hr; cases hr; exact hp c a next ha
  | failure expected offset => rw [ha] at hr; cases hr
  | overlong digits => rw [ha] at hr; cases hr

theorem Begins.attempt (hp : p.Begins S) : (attempt p).Begins S := by
  intro c a next hr
  simp only [Parser.attempt] at hr
  cases ha : p.run c with
  | success a' mid => rw [ha] at hr; cases hr; exact hp c a next ha
  | failure expected offset => rw [ha] at hr; cases hr
  | overlong digits => rw [ha] at hr; cases hr

theorem Local.offset_le (hp : p.Local) {a : α} {next : Cursor} (hr : p.run c = .success a next) :
    c.offset ≤ next.offset := by
  obtain ⟨n, _, rfl⟩ := hp.exists_advance hr
  exact Nat.le_add_right _ _

theorem success_andThen {a : α × β} {next : Cursor} (hr : (p.andThen q).run c = .success a next) :
    ∃ mid, p.run c = .success a.1 mid ∧ q.run mid = .success a.2 next := by
  simp only [Parser.andThen] at hr
  cases ha : p.run c with
  | success a' mid =>
    simp only [ha] at hr
    cases hb : q.run mid with
    | success b next' => rw [hb] at hr; cases hr; exact ⟨mid, rfl, hb⟩
    | failure expected offset => rw [hb] at hr; cases hr
    | overlong digits => rw [hb] at hr; cases hr
  | failure expected offset => rw [ha] at hr; cases hr
  | overlong digits => rw [ha] at hr; cases hr

theorem Begins.andThen (hp : p.Begins S) (hq : q.Local) : (p.andThen q).Begins S := by
  intro c a next hr
  obtain ⟨mid, hmid, hnext⟩ := success_andThen hr
  obtain ⟨s, hs, hsc, hle⟩ := hp c _ mid hmid
  exact ⟨s, hs, hsc, Nat.le_trans hle (hq.offset_le hnext)⟩

theorem drop_takeWhile (accepts : Char → Bool) (cs : List Char) :
    cs.drop (cs.takeWhile accepts).length = cs.dropWhile accepts := by
  induction cs with
  | nil => rfl
  | cons c cs ih => cases h : accepts c <;> simp [h, ih]

/-- The blanks in front are passed over. -/
theorem begins_spaced (hp : p.Begins S) : (whitespace.andThen p).Begins S := by
  intro c a next hr
  obtain ⟨mid, hmid, hnext⟩ := success_andThen hr
  cases hmid
  obtain ⟨s, hs, hsc, hle⟩ := hp _ _ next hnext
  have hrest : (c.advance (c.rest.takeWhile Text.isBlank).length).rest = Text.trimStart c.rest :=
    drop_takeWhile _ _
  rw [hrest, trimStart_trimStart] at hsc
  exact ⟨s, hs, hsc, Nat.le_trans (Nat.add_le_add_right (Nat.le_add_right _ _) _) hle⟩

theorem Begins.token (hp : p.Begins S) : (token p).Begins S :=
  (((begins_spaced hp).andThen local_whitespace).map _).attempt

theorem begins_alternative (hps : ∀ p ∈ ps, p.Begins S) : (alternative ps).Begins S := by
  intro c a next hr
  simp only [alternative] at hr
  generalize joinNames " or " ps = name at hr
  induction ps with
  | nil => cases hr
  | cons p ps ih =>
    obtain ⟨hp, hrest⟩ := List.forall_mem_cons.mp hps
    simp only [runFirst] at hr
    cases ha : p.run c with
    | success a' mid => rw [ha] at hr; cases hr; exact hp c a next ha
    | failure expected offset =>
      simp only [ha] at hr
      split at hr
      · exact ih hrest hr
      · cases hr
    | overlong digits => rw [ha] at hr; cases hr

/-! ## One choice at most -/

/-- A success that has read something, or a failure that has read nothing. -/
inductive Outcome.Clean (c : Cursor) : Outcome α → Prop where
  | success {a : α} {next : Cursor} : c.offset < next.offset → Clean c (.success a next)
  | failure {expected : String} : Clean c (.failure expected c.offset)

theorem ShortRuns.not_longRun {cs : List Char} (h : ShortRuns cs) {count : Nat} :
    ¬ LongRun cs count := by
  rintro ⟨hlong, ds, hds, hdigits, rfl⟩
  exact Nat.not_lt.mpr (h ds hds hdigits) hlong

/-- The token of a parser that begins with one of some texts. -/
inductive Opens : Parser α → List (List Char) → Prop where
  | token {p : Parser α} {starts : List (List Char)} : p.Composed → p.Begins starts →
      Opens (token p) starts

theorem Opens.composed (hp : p.Opens S) : p.Composed := by
  obtain ⟨hcomposed, _⟩ := hp
  exact hcomposed.token

theorem Opens.begins (hp : p.Opens S) : p.Begins S := by
  obtain ⟨_, hbegins⟩ := hp
  exact hbegins.token

theorem Opens.clean (hp : p.Opens S) (hS : ∀ s ∈ S, s ≠ []) (hshort : ShortRuns c.rest) :
    (p.run c).Clean c := by
  cases hr : p.run c with
  | success a next =>
    obtain ⟨s, hs, _, hle⟩ := hp.begins c a next hr
    have hpos := List.length_pos_iff.mpr (hS s hs)
    exact .success (by omega)
  | failure expected offset =>
    obtain ⟨_, _⟩ := hp
    obtain rfl := offset_of_attempt hr
    exact .failure
  | overlong digits => exact absurd (hp.composed.advances.longRun hr) hshort.not_longRun

theorem exists_opens {openings : List (List (List Char))} (h : List.Forall₂ Opens ps openings)
    {p : Parser α} (hp : p ∈ ps) : ∃ S ∈ openings, p.Opens S := by
  obtain ⟨i, hi, rfl⟩ := List.getElem_of_mem hp
  have hi' : i < openings.length := h.length_eq ▸ hi
  exact ⟨openings[i], List.getElem_mem hi', h.get hi hi'⟩

/-- At a place no two of the parsers succeed. -/
abbrev AtMostOne (ps : List (Parser α)) (c : Cursor) : Prop :=
  ps.Pairwise fun p q => ¬ (p.Succeeds c ∧ q.Succeeds c)

theorem atMostOne_of_opens {openings : List (List (List Char))}
    (h : List.Forall₂ Opens ps openings)
    (ho : openings.Pairwise fun S T => ∀ s ∈ S, ∀ t ∈ T, Incomparable s t) (c : Cursor) :
    AtMostOne ps c := by
  induction h with
  | nil => exact .nil
  | @cons p S ps openings hp hps ih =>
    obtain ⟨hfirst, hrest⟩ := List.pairwise_cons.mp ho
    refine .cons (fun q hq => ?_) (ih hrest)
    obtain ⟨T, hT, hqT⟩ := exists_opens hps hq
    exact not_succeeds_both hp.begins hqT.begins (hfirst T hT) c

variable {a : α} {next : Cursor}

theorem success_alternative_iff (hclean : ∀ p ∈ ps, (p.run c).Clean c) (hone : AtMostOne ps c) :
    (alternative ps).run c = .success a next ↔ ∃ p ∈ ps, p.run c = .success a next := by
  simp only [alternative]
  generalize joinNames " or " ps = name
  induction ps with
  | nil => simp [runFirst]
  | cons p ps ih =>
    obtain ⟨hp, hrest⟩ := List.forall_mem_cons.mp hclean
    obtain ⟨hfirst, hone⟩ := List.pairwise_cons.mp hone
    rw [List.exists_mem_cons_iff, ← ih hrest hone, runFirst]
    cases hr : p.run c with
    | success b mid =>
      refine ⟨.inl, ?_⟩
      rintro (h | h)
      · exact h
      · obtain ⟨q, hq, hq'⟩ := (ih hrest hone).mp h
        exact absurd ⟨⟨b, mid, hr⟩, ⟨a, next, hq'⟩⟩ (hfirst q hq)
    | failure expected offset =>
      rw [hr] at hp
      cases hp
      simp
    | overlong digits => rw [hr] at hp; cases hp

theorem clean_alternative (hclean : ∀ p ∈ ps, (p.run c).Clean c) :
    ((alternative ps).run c).Clean c := by
  simp only [alternative]
  generalize joinNames " or " ps = name
  induction ps with
  | nil => exact .failure
  | cons p ps ih =>
    obtain ⟨hp, hrest⟩ := List.forall_mem_cons.mp hclean
    rw [runFirst]
    cases hr : p.run c with
    | success b mid => rw [hr] at hp; cases hp with | success hlt => exact .success hlt
    | failure expected offset =>
      rw [hr] at hp
      cases hp
      simpa using ih hrest
    | overlong digits => rw [hr] at hp; cases hp

/-! ## Choices one after another -/

inductive Chain (ps : List (Parser α)) : Cursor → List α → Cursor → Prop where
  | nil (c : Cursor) : Chain ps c [] c
  | cons {p : Parser α} {c mid last : Cursor} {a : α} {as : List α} :
      p ∈ ps → p.run c = .success a mid → Chain ps mid as last → Chain ps c (a :: as) last

/-- There is no more to choose at the end. -/
def Exhausts (ps : List (Parser α)) (c : Cursor) (as : List α) (last : Cursor) : Prop :=
  Chain ps c as last ∧ ∀ p ∈ ps, ¬ p.Succeeds last

theorem eq_of_atMostOne {p' : Parser α} {a' : α} {next' : Cursor} (hone : AtMostOne ps c)
    (hp : p ∈ ps) (hp' : p' ∈ ps) (hr : p.run c = .success a next)
    (hr' : p'.run c = .success a' next') : a = a' ∧ next = next' := by
  have hsymm : Std.Symm fun p q : Parser α => ¬ (p.Succeeds c ∧ q.Succeeds c) :=
    ⟨fun _ _ h h' => h h'.symm⟩
  have hsame : p = p' := by
    by_contra hne
    exact hone.forall hp hp' hne ⟨⟨a, next, hr⟩, ⟨a', next', hr'⟩⟩
  rw [hsame, hr'] at hr
  cases hr
  exact ⟨rfl, rfl⟩

theorem Exhausts.unique (hone : ∀ c, AtMostOne ps c) {as as' : List α} {last last' : Cursor}
    (h : Exhausts ps c as last) (h' : Exhausts ps c as' last') : as = as' ∧ last = last' := by
  obtain ⟨hchain, hlast⟩ := h
  obtain ⟨hchain', hlast'⟩ := h'
  induction hchain generalizing as' with
  | nil c =>
    cases hchain' with
    | nil => exact ⟨rfl, rfl⟩
    | cons hp hr _ => exact absurd ⟨_, _, hr⟩ (hlast _ hp)
  | cons hp hr _ ih =>
    cases hchain' with
    | nil => exact absurd ⟨_, _, hr⟩ (hlast' _ hp)
    | cons hp' hr' hrest =>
      obtain ⟨rfl, rfl⟩ := eq_of_atMostOne (hone _) hp hp' hr hr'
      obtain ⟨rfl, rfl⟩ := ih hlast hrest
      exact ⟨rfl, rfl⟩

/-- Where no run of digits is too long, `p` chooses one of the parsers. -/
structure Chooses (p : Parser α) (ps : List (Parser α)) : Prop where
  isLocal : p.Local
  clean : ∀ c, ShortRuns c.rest → (p.run c).Clean c
  success_iff : ∀ c a next, ShortRuns c.rest →
    (p.run c = .success a next ↔ ∃ q ∈ ps, q.run c = .success a next)

/-- It reads what one of them reads, or none of them succeeds. -/
theorem Chooses.success_or_failure (hp : p.Chooses ps) (hshort : ShortRuns c.rest) :
    (∃ q ∈ ps, ∃ a next, p.run c = .success a next ∧ q.run c = .success a next ∧
      next.offset ≠ c.offset ∧ next.rest.length < c.rest.length ∧ ShortRuns next.rest) ∨
    ∃ expected, p.run c = .failure expected c.offset ∧ Exhausts ps c [] c := by
  have hclean := hp.clean c hshort
  cases hr : p.run c with
  | success a next =>
    obtain ⟨q, hq, hq'⟩ := (hp.success_iff c a next hshort).mp hr
    obtain ⟨n, hn, rfl⟩ := hp.isLocal.exists_advance hr
    rw [hr] at hclean
    have hlt : c.offset < c.offset + n := by
      cases hclean with
      | success hlt => exact hlt
    have hlen : (c.advance n).rest.length = c.rest.length - n := List.length_drop
    rw [← List.take_append_drop n c.rest] at hshort
    exact .inl ⟨q, hq, a, _, rfl, hq', Nat.ne_of_gt hlt, by omega, hshort.of_append⟩
  | failure expected offset =>
    rw [hr] at hclean
    cases hclean
    refine .inr ⟨expected, rfl, .nil c, fun q hq ⟨a, next, hq'⟩ => ?_⟩
    rw [(hp.success_iff c a next hshort).mpr ⟨q, hq, hq'⟩] at hr
    cases hr
  | overlong digits => rw [hr] at hclean; cases hclean

/-- Every success goes on in the text, so the characters left bound their number. -/
theorem exhausts_runMany (hp : p.Chooses ps) (left : Nat) (values : List α)
    (hshort : ShortRuns c.rest) (hleft : c.rest.length ≤ left) :
    ∃ as last, runMany p.run left values c = .success (values.reverse ++ as) last ∧
      Exhausts ps c as last := by
  induction left generalizing c values with
  | zero =>
    rcases hp.success_or_failure hshort with ⟨_, _, _, _, _, _, _, hlt, _⟩ | ⟨expected, hr, hnone⟩
    · omega
    · exact ⟨[], c, by simp [runMany, hr], hnone⟩
  | succ left ih =>
    rcases hp.success_or_failure hshort with
      ⟨q, hq, a, next, hr, hq', hne, hlt, hshort'⟩ | ⟨expected, hr, hnone⟩
    · obtain ⟨as, last, hrun, hchain, hlast⟩ := ih (a :: values) hshort' (by omega)
      refine ⟨a :: as, last, ?_, .cons hq hq' hchain, hlast⟩
      rw [runMany, hr]
      simpa [hne] using hrun
    · exact ⟨[], c, by simp [runMany, hr], hnone⟩

theorem exhausts_many (hp : p.Chooses ps) (hone : ∀ c, AtMostOne ps c)
    (hshort : ShortRuns c.rest) :
    ∃ as last, (many p).run c = .success as last ∧ Exhausts ps c as last ∧
      ∀ as' last', Exhausts ps c as' last' → as' = as ∧ last' = last := by
  obtain ⟨as, last, hrun, hexhausts⟩ := exhausts_runMany hp _ [] hshort (Nat.le_refl _)
  exact ⟨as, last, hrun, hexhausts, fun as' last' h => h.unique hone hexhausts⟩

end Parser

end Dice
