import Dice.Proofs.Notation.Language

/-!
# Dice.Proofs.Notation.Completeness

Words of the notation are read by the parsers of the grammar, wherever something stands behind
them that does not belong to them.

* `takes_diceModifier`, `takes_pool`, `takes_constantTerm` : modifiers, pools and constants;
* `Apart`, `Closes` : what may stand behind a constant, and behind any term;
* `lexes_signedTerm` : the terms of a sum;
* `takes_arithmeticRoll`, `takes_basicRoll` : whole rolls.
-/

namespace Dice

open Dice.Parser (Blanks Spaced Stops TakesAll)
open Dice.Grammar

namespace Notation

variable {α : Type}

/-! ## Symbols -/

theorem takes_symbols (char : α → Char) {as : List α} {a : α} (hmem : a ∈ as)
    (hinj : ∀ b ∈ as, char b = char a → b = a) (cs : List Char) :
    (Parser.alternative (as.map (symbolOf char))).Takes (char a :: cs) a cs := by
  induction as with
  | nil => cases hmem
  | cons b as ih =>
    rw [List.map_cons]
    by_cases hb : char b = char a
    · obtain rfl := hinj b List.mem_cons_self hb
      exact ((Parser.takes_char String.toList_ofList cs).map _).alternative_cons _
    · have hrefuses : (symbolOf char b).Refuses (char a :: cs) := by
        refine (Parser.refuses_char String.toList_ofList ?_).map _
        simpa using fun h => hb h.symm
      have hmem' : a ∈ as := by
        rcases List.mem_cons.mp hmem with rfl | h
        · exact absurd rfl hb
        · exact h
      exact hrefuses.alternative_cons (ih hmem' fun b' hb' => hinj b' (List.mem_cons_of_mem b hb'))

theorem refuses_symbols (char : α → Char) {as : List α} {cs : List Char}
    (h : ∀ a ∈ as, cs.head? ≠ some (char a)) :
    (Parser.alternative (as.map (symbolOf char))).Refuses cs := by
  refine Parser.refuses_alternative ?_
  intro p hp
  obtain ⟨a, ha, rfl⟩ := List.mem_map.mp hp
  exact (Parser.refuses_char String.toList_ofList (h a ha)).map _

theorem takes_relation (r : Relation) (cs : List Char) : relation.Takes (r.char :: cs) r cs :=
  takes_symbols Relation.char (by cases r <;> decide) (by cases r <;> decide) cs

theorem takes_sign (s : Sign) (cs : List Char) : sign.Takes (s.char :: cs) s cs :=
  takes_symbols Sign.char (by cases s <;> decide) (by cases s <;> decide) cs

theorem takes_comparisonPoint {u more : List Char} {p : Relation × Nat} (h : Comparison u p)
    (hmore : Stops Text.isDigit more) : comparisonPoint.Takes (u ++ more) p more := by
  obtain ⟨r, hn⟩ := h
  exact ((takes_relation r _).andThen (Parser.takes_positiveInt hn hmore)).attempt

theorem refuses_comparisonPoint {cs : List Char} (h : ∀ r : Relation, cs.head? ≠ some r.char) :
    comparisonPoint.Refuses cs :=
  ((refuses_symbols Relation.char fun r _ => h r).fails.andThen _).attempt

theorem takes_count {u more : List Char} {n : Nat} (h : Count u n)
    (hmore : Stops Text.isDigit more) :
    (Parser.optional Parser.positiveInt 1).Takes (u ++ more) n more := by
  cases h with
  | missing => exact (Parser.refuses_positiveInt hmore).fails.optional 1
  | written hn => exact (Parser.takes_positiveInt hn hmore).optional 1

/-! ## Modifiers -/

section Modifiers

variable {cs more : List Char}

theorem takes_countModifier {letters : String} (make : Int → Modifier) {ds : List Char} {n : Nat}
    (hn : Count ds n) (hcs : Text.trimStart cs = letters.toList ++ (ds ++ more))
    (hmore : Stops Text.isDigit more) :
    (countModifier letters make).Takes cs (make n) (Text.trimStart more) := by
  have htake := ((Parser.takes_string letters (ds ++ more)).andThen (takes_count hn hmore)).map
    fun value => make value.2
  rw [← hcs] at htake
  exact htake.token

theorem takes_comparisonModifier {letters : String} (trigger : Trigger) {u : List Char}
    {p : Relation × Nat} (hp : Comparison u p)
    (hcs : Text.trimStart cs = letters.toList ++ (u ++ more)) (hmore : Stops Text.isDigit more) :
    (comparisonModifier letters trigger).Takes cs (.onMatch trigger (point p))
      (Text.trimStart more) := by
  have htake := ((Parser.takes_string letters (u ++ more)).andThen
    (takes_comparisonPoint hp hmore)).map fun value => Modifier.onMatch trigger (point value.2)
  rw [← hcs] at htake
  exact htake.token

/-- The modifiers that start with letters of their own, in the order in which they are tried. -/
def lettered : List (String × Parser Modifier) := [
  ("kh", keepHighest), ("kl", keepLowest), ("dh", dropHighest), ("dl", dropLowest),
  ("ro", rerollOnce), ("rc", rerollWhile), ("!", explode), ("^", compound)]

theorem refuses_letters {β : Type} {letters : String} (h : ¬ letters.toList <+: Text.trimStart cs)
    (q : Parser β) (f : String × β → Modifier) :
    (Parser.token (((Parser.string letters).andThen q).map f)).Refuses cs :=
  (((Parser.refuses_string h).fails.andThen q).map f).token

theorem refuses_lettered {i : Nat}
    (h : (lettered.take i).all (fun e => !e.1.toList.isPrefixOf (Text.trimStart cs)) = true) :
    ∀ q ∈ (lettered.take i).map Prod.snd, q.Refuses cs := by
  intro q hq
  obtain ⟨e, he, rfl⟩ := List.mem_map.mp hq
  have hletters : ¬ e.1.toList <+: Text.trimStart cs := by
    intro hprefix
    have hall := List.all_eq_true.mp h e he
    rw [List.isPrefixOf_iff_prefix.mpr hprefix] at hall
    cases hall
  have hmem := List.mem_of_mem_take he
  simp only [lettered, List.mem_cons, List.not_mem_nil, or_false] at hmem
  rcases hmem with rfl | rfl | rfl | rfl | rfl | rfl | rfl | rfl <;>
    exact refuses_letters hletters _ _

/-- The first choice whose letters are there is taken. -/
theorem takes_lettered (i : Nat) {p : Parser Modifier} {m : Modifier} {left : List Char}
    (hp : p.Takes cs m left)
    (h : (lettered.take i).all (fun e => !e.1.toList.isPrefixOf (Text.trimStart cs)) = true)
    (after : List (Parser Modifier)) :
    (Parser.alternative ((lettered.take i).map Prod.snd ++ p :: after)).Takes cs m left :=
  hp.alternative_append (refuses_lettered h) after

theorem refuses_success (h : ∀ r : Relation, (Text.trimStart cs).head? ≠ some r.char) :
    success.Refuses cs :=
  ((refuses_comparisonPoint h).fails.map _).token

theorem takes_diceModifier {v : List Char} {m : Modifier} (h : DiceModifier v m)
    (hcs : Text.trimStart cs = v ++ more) (hmore : Stops Text.isDigit more) :
    diceModifier.Takes cs m (Text.trimStart more) := by
  cases h with
  | keepHighest hn =>
    exact takes_lettered 0 (takes_countModifier (.keep · true) hn hcs hmore) rfl _
  | keepLowest hn =>
    exact takes_lettered 1 (takes_countModifier (.keep · false) hn hcs hmore) (by rw [hcs]; rfl) _
  | dropHighest hn =>
    exact takes_lettered 2 (takes_countModifier (.drop · true) hn hcs hmore) (by rw [hcs]; rfl) _
  | dropLowest hn =>
    exact takes_lettered 3 (takes_countModifier (.drop · false) hn hcs hmore) (by rw [hcs]; rfl) _
  | rerollOnce hp =>
    exact takes_lettered 4 (takes_comparisonModifier .rerollOnce hp hcs hmore) (by rw [hcs]; rfl) _
  | rerollWhile hp =>
    exact takes_lettered 5 (takes_comparisonModifier .rerollWhile hp hcs hmore) (by rw [hcs]; rfl) _
  | explode hp =>
    exact takes_lettered 6 (takes_comparisonModifier .explode hp hcs hmore) (by rw [hcs]; rfl) _
  | compound hp =>
    exact takes_lettered 7 (takes_comparisonModifier .compound hp hcs hmore) (by rw [hcs]; rfl) _
  | success hp =>
    have htake := (takes_comparisonPoint hp hmore).map fun p => Modifier.onMatch .success (point p)
    rw [← hcs] at htake
    refine takes_lettered 8 htake.token ?_ _
    obtain ⟨r, _⟩ := hp
    rw [hcs]
    cases r <;> rfl
  | failure hp =>
    have hbefore : ∀ q ∈ (lettered.take 8).map Prod.snd ++ [success], q.Refuses cs := by
      refine List.forall_mem_append.mpr ⟨refuses_lettered (by rw [hcs]; rfl), ?_⟩
      refine List.forall_mem_singleton.mpr (refuses_success ?_)
      intro r
      rw [hcs]
      cases r <;> simp [Relation.char]
    exact (takes_comparisonModifier .failure hp hcs hmore).alternative_append hbefore []

theorem takes_constantModifier {v : List Char} {m : Modifier} (h : Adjustment v m)
    (hcs : Text.trimStart cs = v ++ more) (hmore : Stops Text.isDigit more) :
    constantModifier.Takes cs m (Text.trimStart more) := by
  obtain ⟨s, hn⟩ := h
  have htake := ((takes_sign s _).andThen (Parser.takes_positiveInt hn hmore)).map
    fun value => Modifier.adjust (.known value.1) value.2
  rw [← List.cons_append, ← hcs] at htake
  exact htake.token

end Modifiers

/-! ## Ends of terms -/

/-- Only the next sign may stand behind a term. -/
def Closes (more : List Char) : Prop :=
  Text.trimStart more = [] ∨ ∃ (s : Sign) (rest : List Char), Text.trimStart more = s.char :: rest

theorem Closes.blanks_append {w more : List Char} (hw : Blanks w) (h : Closes more) :
    Closes (w ++ more) := by
  rw [Closes, Parser.trimStart_append_of_blanks hw]
  exact h

/-- Whatever can stand behind a term is not what a letter or a digit is. -/
theorem Closes.stops {more : List Char} (h : Closes more) {accepts : Char → Bool}
    (hblank : ∀ c, Text.isBlank c = true → accepts c = false)
    (hsign : ∀ s : Sign, accepts s.char = false) : Stops accepts more := by
  intro c hc
  cases hb : Text.isBlank c with
  | true => exact hblank c hb
  | false =>
    have hstart : Text.trimStart more = more := by
      refine Parser.dropWhile_of_stops ?_
      intro c' hc'
      rw [hc] at hc'
      cases hc'
      exact hb
    rcases h with hnil | ⟨s, rest, hsome⟩
    · rw [← hstart, hnil] at hc
      cases hc
    · rw [← hstart, hsome] at hc
      cases hc
      exact hsign s

theorem Closes.stops_isDigit {more : List Char} (h : Closes more) : Stops Text.isDigit more :=
  h.stops (fun _ => Text.isDigit_of_isBlank) (by intro s; cases s <;> decide)

theorem refuses_diceModifier {cs : List Char} (h : Closes cs) : diceModifier.Refuses cs := by
  have hletters :
      (lettered.take 8).all (fun e => !e.1.toList.isPrefixOf (Text.trimStart cs)) = true := by
    rcases h with hnil | ⟨s, rest, hsome⟩
    · rw [hnil]; rfl
    · rw [hsome]; cases s <;> rfl
  have hrelation : ∀ r : Relation, (Text.trimStart cs).head? ≠ some r.char := by
    intro r
    rcases h with hnil | ⟨s, rest, hsome⟩
    · rw [hnil]; simp
    · rw [hsome]; cases s <;> cases r <;> simp [Sign.char, Relation.char]
  have hfailure : ¬ "f".toList <+: Text.trimStart cs := by
    rcases h with hnil | ⟨s, rest, hsome⟩
    · rw [hnil]; simp
    · rw [hsome]; cases s <;> simp [Sign.char]
  refine Parser.refuses_alternative ?_
  exact List.forall_mem_append.mpr ⟨refuses_lettered hletters,
    List.forall_mem_cons.mpr ⟨refuses_success hrelation,
      List.forall_mem_singleton.mpr (refuses_letters hfailure _ _)⟩⟩

/-- Behind a number there are no more digits, and nothing that makes it the count of a pool. -/
def Apart (more : List Char) : Prop :=
  Stops Text.isDigit more ∧ ∀ rest, more = 'd' :: rest → dieType.Fails rest

theorem Closes.apart {more : List Char} (h : Closes more) : Apart more := by
  refine ⟨h.stops_isDigit, ?_⟩
  rintro rest rfl
  have hd : Stops (· == 'd') ('d' :: rest) :=
    h.stops (by intro c hc; rw [beq_eq_false_iff_ne]; rintro rfl; cases hc)
      (by intro s; cases s <;> decide)
  cases hd 'd' rfl

/-! ## Pools -/

theorem takes_dieType {v more : List Char} {d : Die} (h : Face v d)
    (hmore : Stops Text.isDigit more) : dieType.Takes (v ++ more) d more := by
  cases h with
  | fudge => exact ((Parser.takes_char rfl more).map _).alternative_cons _
  | percent =>
    have hfudge : (Parser.char "F").Refuses ('%' :: more) :=
      Parser.refuses_char (show _ = ['F'] from rfl) (by simp)
    exact (hfudge.map _).alternative_cons (((Parser.takes_char rfl more).map _).alternative_cons _)
  | sided hn =>
    obtain ⟨c, rest, rfl, hc⟩ := exists_digit_of_number hn
    have hfudge : (Parser.char "F").Refuses (c :: rest ++ more) :=
      Parser.refuses_char rfl (by rintro ⟨⟩; cases hc)
    have hpercent : (Parser.char "%").Refuses (c :: rest ++ more) :=
      Parser.refuses_char rfl (by rintro ⟨⟩; cases hc)
    exact (hfudge.map _).alternative_cons ((hpercent.map _).alternative_cons
      (((Parser.takes_positiveInt hn hmore).map _).alternative_cons _))

section Pools

variable {M : List Char → Modifier → Prop} {p : Parser Modifier}

theorem stops_isDigit_spaced (hM : ∀ v m, M v m → Marked v) {u : List Char} {m : Modifier}
    (h : Spaced M u m) (more : List Char) : Stops Text.isDigit (u ++ more) := by
  obtain ⟨hu, hv, hw⟩ := h
  rename_i u v w
  cases u with
  | nil =>
    rw [List.nil_append, List.append_assoc]
    exact (hM v m hv).stops_append _
  | cons c u => exact Parser.stops_cons (Text.isDigit_of_isBlank (hu c List.mem_cons_self))

theorem inked_spaced (hM : ∀ v m, M v m → Marked v) {u : List Char} {m : Modifier}
    (h : Spaced M u m) : Parser.Inked u := by
  obtain ⟨hu, hv, hw⟩ := h
  exact (hM _ m hv).solid.inked _ _

/-- The modifiers end where the parser for them refuses to go on. -/
theorem takes_pool (hp : p.Lexes (Spaced M) (Stops Text.isDigit)) (hM : ∀ v m, M v m → Marked v)
    {v cs more : List Char} {q : Pool Modifier} (h : PoolWord M v q)
    (hcs : Text.trimStart cs = v ++ more) (hmore : Stops Text.isDigit more)
    (hrefuses : ∀ cs, Text.trimStart cs = Text.trimStart more → p.Refuses cs) :
    (pool p).Takes cs q (Text.trimStart more) := by
  obtain ⟨hn, hd, hms⟩ := h
  rename_i us vs ws n d ms
  have hF : ∀ u m more, Spaced M u m → Stops Text.isDigit (u ++ more) :=
    fun _ _ more hu => stops_isDigit_spaced hM hu more
  -- blanks behind the die are left to the pool where there is no modifier to pass over them
  obtain ⟨left, hall, hleft⟩ :=
    hp.takesAll_raw (fun _ _ => inked_spaced hM) hF hms hmore hrefuses
  have hdie := takes_dieType hd (Parser.follows_repeated hF hms hmore)
  have hletter : (Parser.char "d").Takes ('d' :: (vs ++ (ws ++ more))) 'd' (vs ++ (ws ++ more)) :=
    Parser.takes_char rfl _
  have hafter : Stops Text.isDigit ('d' :: (vs ++ (ws ++ more))) := Parser.stops_cons rfl
  have hcount := takes_count hn hafter
  have htake := (((hcount.andThen hletter).andThen hdie).andThen hall.many).map
    fun value => (⟨value.1.1.1, value.1.2, value.2⟩ : Pool Modifier)
  rw [show us ++ 'd' :: (vs ++ (ws ++ more)) = Text.trimStart cs by simp [hcs]] at htake
  rw [← hleft]
  exact htake.token

end Pools

/-! ## Kinds of modifiers -/

theorem stops_blanks_append {w more : List Char} (hw : Blanks w) (h : Stops Text.isDigit more) :
    Stops Text.isDigit (w ++ more) := by
  cases w with
  | nil => exact h
  | cons c w => exact Parser.stops_cons (Text.isDigit_of_isBlank (hw c List.mem_cons_self))

theorem lexes_diceModifier :
    diceModifier.Lexes (Spaced DiceModifier) (Stops Text.isDigit) :=
  Parser.lexes_spaced (fun _ _ _ _ h hcs hmore => takes_diceModifier h hcs hmore)
    (fun _ _ h => (marked_diceModifier h).solid) fun _ _ => stops_blanks_append

theorem lexes_modifier : modifier.Lexes (Spaced AnyModifier) (Stops Text.isDigit) := by
  refine Parser.lexes_spaced ?_ (fun _ _ h => (marked_anyModifier h).solid)
    fun _ _ => stops_blanks_append
  intro v m cs more h hcs hmore
  cases h with
  | dice h => exact (takes_diceModifier h hcs hmore).alternative_cons _
  | adjustment h =>
    have hsign : Closes cs := by
      obtain ⟨s, _⟩ := h
      exact .inr ⟨s, _, hcs⟩
    exact (refuses_diceModifier hsign).alternative_cons
      ((takes_constantModifier h hcs hmore).alternative_cons _)

theorem refuses_modifier {cs : List Char} (h : Text.trimStart cs = []) : modifier.Refuses cs := by
  have hsign : sign.Refuses (Text.trimStart cs) := by
    rw [h]
    exact refuses_symbols Sign.char (by simp)
  refine Parser.refuses_alternative ?_
  exact List.forall_mem_cons.mpr ⟨refuses_diceModifier (.inl h),
    List.forall_mem_singleton.mpr ((hsign.fails.andThen _).map _).token⟩

/-! ## Terms -/

theorem takes_poolTerm {v cs more : List Char} {q : Pool Modifier}
    (h : PoolWord DiceModifier v q) (hcs : Text.trimStart cs = v ++ more) (hmore : Closes more) :
    rollTerm.Takes cs q.node (Text.trimStart more) := by
  have hrefuses : ∀ cs, Text.trimStart cs = Text.trimStart more → diceModifier.Refuses cs := by
    intro cs' hcs'
    refine refuses_diceModifier ?_
    rw [Closes, hcs']
    exact hmore
  exact ((takes_pool lexes_diceModifier (fun _ _ => marked_diceModifier) h hcs
    hmore.stops_isDigit hrefuses).map _).alternative_cons _

/-- A number is tried as the count of a pool first. -/
theorem takes_constantTerm {v cs more : List Char} {r : Node} (h : ConstantWord v r)
    (hcs : Text.trimStart cs = v ++ more) (hmore : Apart more) :
    rollTerm.Takes cs r (Text.trimStart more) := by
  obtain ⟨hn⟩ := h
  have hcount := takes_count (.written hn) hmore.1
  have hbody : (((Parser.optional Parser.positiveInt 1).andThen (Parser.char "d")).andThen
      dieType).Fails (v ++ more) := by
    by_cases hd : more.head? = some 'd'
    · obtain ⟨rest, rfl⟩ : ∃ rest, more = 'd' :: rest := List.head?_eq_some_iff.mp hd
      have hletter : (Parser.char "d").Takes ('d' :: rest) 'd' rest := Parser.takes_char rfl rest
      exact (hcount.andThen hletter).andThen_fails (hmore.2 rest rfl)
    · have hletter : (Parser.char "d").Refuses more := Parser.refuses_char rfl hd
      exact (hcount.andThen_fails hletter.fails).andThen _
  have hpool : (pool diceModifier).Refuses cs := by
    rw [← hcs] at hbody
    exact ((hbody.andThen _).map _).token
  have htake := (Parser.takes_positiveInt hn hmore.1).map fun (n : Nat) => Node.constant n
  rw [← hcs] at htake
  exact (hpool.map _).alternative_cons (htake.token.alternative_cons _)

theorem lexes_rollTerm : rollTerm.Lexes Term Closes := by
  refine Parser.lexes_spaced ?_ (fun _ _ => solid_termWord) fun _ _ => Closes.blanks_append
  intro v r cs more h hcs hmore
  cases h with
  | pool h => exact takes_poolTerm h hcs hmore
  | constant h => exact takes_constantTerm h hcs hmore.apart

theorem lexes_arithmeticSign : arithmeticSign.Lexes (Spaced SignWord) fun _ => True := by
  refine Parser.lexes_spaced ?_ (fun _ _ => solid_signWord) fun _ _ _ _ => trivial
  rintro _ s cs more rfl hcs _
  have htake := takes_sign s more
  rw [show s.char :: more = Text.trimStart cs from hcs.symm] at htake
  exact htake.token

theorem refuses_signedTerm {cs : List Char}
    (h : ∀ s : Sign, (Text.trimStart cs).head? ≠ some s.char) :
    (arithmeticSign.andThen rollTerm).Refuses cs :=
  ((refuses_symbols Sign.char fun s _ => h s).fails.token).andThen _

section SignedTerms

variable {T : List Char → Node → Prop} {u : List Char} {t : Sign × Node}

theorem lexes_signedTerm {F : List Char → Prop} (hT : rollTerm.Lexes (Spaced T) F) :
    (arithmeticSign.andThen rollTerm).Lexes (SignedTerm T) F := by
  rintro _ _ cs more ⟨hs, hr⟩ hcs hmore
  rename_i u v s r
  rw [List.append_assoc] at hcs
  exact (lexes_arithmeticSign u s cs (v ++ more) hs hcs trivial).andThen
    (hT v r _ more hr (Parser.trimStart_trimStart _) hmore)

theorem closes_signedTerm (h : SignedTerm T u t)
    (more : List Char) : Closes (u ++ more) := by
  obtain ⟨hs, hr⟩ := h
  rename_i v s r
  obtain ⟨hu, rfl, hw⟩ := hs
  rw [Closes, List.append_assoc, Parser.trimStart_spaced hu (marked_sign s []).solid]
  exact .inr ⟨s, _, rfl⟩

theorem inked_signedTerm (h : SignedTerm T u t) : Parser.Inked u := by
  obtain ⟨hs, hr⟩ := h
  rename_i v s r
  obtain ⟨_, rfl, _⟩ := hs
  exact ⟨s.char, by simp, by cases s <;> decide⟩

end SignedTerms

/-! ## Rolls -/

theorem takes_arithmeticRoll {cs : List Char} {r : Node} (h : Arithmetic cs r) :
    arithmeticRoll.Takes (Text.trimStart cs) r [] := by
  have hend : (arithmeticSign.andThen rollTerm).Refuses [] :=
    refuses_signedTerm (by simp [Text.trimStart])
  cases h with
  | single h =>
    have hfirst := lexes_rollTerm cs r (Text.trimStart cs) [] h
      (by rw [Parser.trimStart_trimStart, List.append_nil]) (.inl rfl)
    exact (hfirst.andThen (TakesAll.nil hend).many).map collapse
  | sum h hterms hne =>
    rename_i u v r terms
    have hnil : Closes [] := .inl rfl
    have hclosed := Parser.follows_repeated (fun _ _ more h => closes_signedTerm h more) hterms hnil
    have hall := (lexes_signedTerm lexes_rollTerm).takesAll (fun _ _ => inked_signedTerm)
      (fun _ _ more h => closes_signedTerm h more) hterms hnil hend
    rw [List.append_nil] at hclosed hall
    have hfirst := lexes_rollTerm u r (Text.trimStart (u ++ v)) v h
      (Parser.trimStart_trimStart _) hclosed
    have htake := (hfirst.andThen hall.many).map collapse
    cases terms with
    | nil => exact absurd rfl hne
    | cons term terms => exact htake

theorem takes_basicRoll {cs : List Char} {r : Node} (h : Basic cs r) :
    basicRoll.Takes (Text.trimStart cs) r [] := by
  obtain ⟨hu, hv, hw⟩ := h
  rename_i q u v w
  have hend : Text.trimStart w = [] := by
    have htrim := Parser.trimStart_append_of_blanks hw []
    rwa [List.append_nil] at htrim
  have hcs := Parser.trimStart_spaced (w := w) hu (solid_poolWord hv) []
  rw [List.append_nil, List.append_nil] at hcs
  have hstops : Stops Text.isDigit w := by
    have hblank := stops_blanks_append hw (Parser.stops_nil _)
    rwa [List.append_nil] at hblank
  have htake := takes_pool lexes_modifier (fun _ _ => marked_anyModifier) hv
    ((Parser.trimStart_trimStart _).trans hcs) hstops
    fun cs' hcs' => refuses_modifier (hcs'.trans hend)
  rw [hend] at htake
  exact htake.map _

end Notation

end Dice
