import Dice.Proofs.Draws.Returns

/-!
# Dice.Proofs.Draws.Run

Runs on a source, and the same runs on a script of the answers given.

* `run_bind` : one computation after another runs on what the source has left.
* `run_map` : what is made of a result without draws changes nothing but the result.
* `Asked`, `run_asked` : what a run asks of a source, and what it leaves of it.
* `answersTo s requests` : what the source answers to requests made one after another.
* `returns_answersTo` : a run that succeeds was led by the answers to its requests.
* `run_script`, `run_script_short` : a script of those answers gives the same result and is used up;
  a script that ends earlier is used up, and fails.
-/

namespace Dice

namespace Run

variable {σ α β : Type}

/-- Nothing follows a run that failed. -/
def andThen (r : Run σ α) (f : α → σ → Run σ β) : Run σ β :=
  match r.result with
  | .error e => ⟨.error e, r.source, r.requests, r.warnings⟩
  | .ok a =>
    let next := f a r.source
    ⟨next.result, next.source, r.requests ++ next.requests, r.warnings ++ next.warnings⟩

def map (f : α → β) (r : Run σ α) : Run σ β :=
  ⟨r.result.map f, r.source, r.requests, r.warnings⟩

/-- What came before a run is put in front of it. -/
def after (r : Run σ α) (requests : List Request) (warnings : List Warning) : Run σ α :=
  ⟨r.result, r.source, requests ++ r.requests, warnings ++ r.warnings⟩

theorem map_map {γ : Type} (r : Run σ α) (f : α → β) (g : β → γ) :
    (r.map f).map g = r.map (g ∘ f) := by
  obtain ⟨result, s, requests, warnings⟩ := r
  cases result <;> rfl

theorem map_eq_map_iff {r r' : Run σ α} {f : α → β} :
    r.map f = r'.map f ↔ r.result.map f = r'.result.map f ∧ r.source = r'.source ∧
      r.requests = r'.requests ∧ r.warnings = r'.warnings := by
  simp only [map, Run.mk.injEq]

theorem after_andThen (r : Run σ α) (f : α → σ → Run σ β) (requests : List Request)
    (warnings : List Warning) :
    (r.after requests warnings).andThen f = (r.andThen f).after requests warnings := by
  obtain ⟨result, s, rs, ws⟩ := r
  cases result with
  | error e => rfl
  | ok a => simp [andThen, after]

theorem andThen_ok {r : Run σ α} {a : α} (h : r.result = .ok a) (f : α → σ → Run σ β) :
    r.andThen f = (f a r.source).after r.requests r.warnings := by
  simp [andThen, after, h]

theorem exists_of_andThen_ok {r : Run σ α} {f : α → σ → Run σ β} {b : β}
    (h : (r.andThen f).result = .ok b) : ∃ a, r.result = .ok a ∧ (f a r.source).result = .ok b := by
  unfold andThen at h
  split at h
  · cases h
  · rename_i a ha
    exact ⟨a, ha, h⟩

end Run

namespace Draws

variable {σ α β : Type} [RandomSource σ]

theorem runFrom_eq (p : Draws α) (s : σ) (requests : List Request) (warnings : List Warning) :
    p.runFrom s requests warnings = (p.run s).after requests.reverse warnings.reverse := by
  unfold run
  induction p generalizing s requests warnings with
  | done a => simp [runFrom, Run.after]
  | fail e => simp [runFrom, Run.after]
  | warn w p ih =>
    rw [runFrom, ih, runFrom, ih s [] [w]]
    simp [Run.after]
  | draw r next ih =>
    cases hs : RandomSource.next s r with
    | mk answer s' =>
      cases answer with
      | error e => simp [runFrom, hs, Run.after]
      | ok value =>
        simp only [runFrom, hs]
        rw [ih, ih value s' [r] []]
        simp [Run.after]

theorem run_done (a : α) (s : σ) : (done a).run s = ⟨.ok a, s, [], []⟩ := rfl

theorem run_warn (w : Warning) (p : Draws α) (s : σ) : (warn w p).run s = (p.run s).after [] [w] :=
  runFrom_eq p s [] [w]

theorem run_draw_ok {r : Request} {next : Int → Draws α} {s s' : σ} {value : Int}
    (h : RandomSource.next s r = (.ok value, s')) :
    (draw r next).run s = ((next value).run s').after [r] [] := by
  simp only [run, runFrom, h]
  exact runFrom_eq (next value) s' [r] []

theorem run_draw_error {r : Request} {next : Int → Draws α} {s s' : σ} {e : SourceError}
    (h : RandomSource.next s r = (.error e, s')) :
    (draw r next).run s = ⟨.error (.source e), s', [r], []⟩ := by
  simp [run, runFrom, h]

theorem run_bind (p : Draws α) (f : α → Draws β) (s : σ) :
    (p.bind f).run s = (p.run s).andThen fun a s => (f a).run s := by
  induction p generalizing s with
  | done a => simp [run_done, Run.andThen]
  | fail e => rfl
  | warn w p ih => rw [warn_bind, run_warn, run_warn, ih, Run.after_andThen]
  | draw r next ih =>
    rw [draw_bind]
    cases hs : RandomSource.next s r with
    | mk answer s' =>
      cases answer with
      | error e => rw [run_draw_error hs, run_draw_error hs]; rfl
      | ok value => rw [run_draw_ok hs, run_draw_ok hs, ih, Run.after_andThen]

theorem run_announce (warnings : List Warning) (p : Draws α) (s : σ) :
    (announce warnings p).run s = (p.run s).after [] warnings := by
  induction warnings with
  | nil => rfl
  | cons w warnings ih => rw [announce_cons, run_warn, ih]; rfl

theorem run_map (p : Draws α) (f : α → β) (s : σ) :
    (p.bind fun a => .done (f a)).run s = (p.run s).map f := by
  rw [run_bind]
  cases h : (p.run s).result with
  | error e => simp [Run.andThen, Run.map, h, Except.map]
  | ok a => simp [Run.andThen, Run.map, h, Except.map, run_done]

theorem run_ofExcept {ε : Type} (error : ε → RollError) (x : Except ε α) (s : σ) :
    (ofExcept error x).run s = ⟨x.mapError fun e => .roll (error e), s, [], []⟩ := by
  cases x <;> rfl

/-! ## What is asked of a source -/

/-- The requests made of a source, those of them that it answered, and what is left of it. Only the
last request may have no answer. -/
inductive Asked : σ → List Request → List Request → σ → Prop where
  | none {s : σ} : Asked s [] [] s
  | failed {s s' : σ} {r : Request} {e : SourceError} :
      RandomSource.next s r = (.error e, s') → Asked s [r] [] s'
  | more {s s' s'' : σ} {r : Request} {value : Int} {requests answered : List Request} :
      RandomSource.next s r = (.ok value, s') → Asked s' requests answered s'' →
      Asked s (r :: requests) (r :: answered) s''

/-- What every request keeps is kept by all of them. -/
theorem Asked.preserves {P : σ → Prop}
    (hP : ∀ {s s' : σ} {r : Request} {answer : Except SourceError Int},
      RandomSource.next s r = (answer, s') → P s → P s')
    {s s' : σ} {requests answered : List Request} (h : Asked s requests answered s') (hs : P s) :
    P s' := by
  induction h with
  | none => exact hs
  | failed hnext => exact hP hnext hs
  | more hnext _ ih => exact ih (hP hnext hs)

theorem run_asked (p : Draws α) (s : σ) :
    ∃ answered, Asked s (p.run s).requests answered (p.run s).source := by
  induction p generalizing s with
  | done a => exact ⟨[], .none⟩
  | fail e => exact ⟨[], .none⟩
  | warn w p ih =>
    rw [run_warn]
    exact ih s
  | draw r next ih =>
    cases hs : RandomSource.next s r with
    | mk answer s' =>
      cases answer with
      | error e =>
        rw [run_draw_error hs]
        exact ⟨[], .failed hs⟩
      | ok value =>
        rw [run_draw_ok hs]
        obtain ⟨answered, hasked⟩ := ih value s'
        exact ⟨r :: answered, .more hs hasked⟩

/-! ## The answers of a source -/

/-- The answers to requests made one after another, up to the first that has none. -/
def answersTo (s : σ) : List Request → List Int
  | [] => []
  | r :: requests =>
    match RandomSource.next s r with
    | (.error _, _) => []
    | (.ok value, s) => value :: answersTo s requests

/-- A run that succeeds had an answer to every request, and these answers lead to its result. -/
theorem returns_answersTo {p : Draws α} {s : σ} {a : α} (h : (p.run s).result = .ok a) :
    Returns p (answersTo s (p.run s).requests) a ∧
      (answersTo s (p.run s).requests).length = (p.run s).requests.length := by
  induction p generalizing s with
  | done b => cases h; exact ⟨.done, rfl⟩
  | fail e => cases h
  | warn w p ih =>
    rw [run_warn] at h ⊢
    obtain ⟨hp, hlen⟩ := ih h
    exact ⟨.warn hp, hlen⟩
  | draw r next ih =>
    cases hs : RandomSource.next s r with
    | mk answer s' =>
      cases answer with
      | error e => rw [run_draw_error hs] at h; cases h
      | ok value =>
        rw [run_draw_ok hs] at h ⊢
        obtain ⟨hp, hlen⟩ := ih value h
        simp only [Run.after, List.singleton_append, answersTo, hs, List.length_cons]
        exact ⟨.draw hp, by rw [hlen]⟩

/-- Requests made after a run that succeeds are answered by what it has left of the source. -/
theorem answersTo_append {p : Draws α} {s : σ} {a : α} (h : (p.run s).result = .ok a)
    (more : List Request) :
    answersTo s ((p.run s).requests ++ more) =
      answersTo s (p.run s).requests ++ answersTo (p.run s).source more := by
  induction p generalizing s with
  | done b => rfl
  | fail e => cases h
  | warn w p ih =>
    rw [run_warn] at h ⊢
    exact ih h
  | draw r next ih =>
    cases hs : RandomSource.next s r with
    | mk answer s' =>
      cases answer with
      | error e => rw [run_draw_error hs] at h; cases h
      | ok value =>
        rw [run_draw_ok hs] at h ⊢
        simp only [Run.after, List.cons_append, List.nil_append, answersTo, hs]
        rw [ih value h]

/-- Every answer of a run that succeeds was given to a request. -/
theorem exists_request {p : Draws α} {s : σ} {a : α} (h : (p.run s).result = .ok a) {answer : Int}
    (hanswer : answer ∈ answersTo s (p.run s).requests) :
    ∃ r ∈ (p.run s).requests,
      (r, answer) ∈ (p.run s).requests.zip (answersTo s (p.run s).requests) := by
  have hanswers := List.map_snd_zip (Nat.le_of_eq (returns_answersTo h).2)
  rw [← hanswers] at hanswer
  obtain ⟨⟨r, answer⟩, hmem, rfl⟩ := List.mem_map.mp hanswer
  exact ⟨r, (List.of_mem_zip hmem).1, hmem⟩

/-! ## Scripts -/

theorem next_script {values : List Int} {index : Nat} {value : Int} (h : values[index]? = some value)
    (r : Request) :
    RandomSource.next (Source.script values index) r = (.ok value, .script values (index + 1)) := by
  simp [RandomSource.next, Source.answer, h]

theorem next_script_end (values : List Int) (r : Request) :
    RandomSource.next (Source.script values values.length) r =
      (.error (.exhausted values.length), .script values values.length) := by
  simp [RandomSource.next, Source.answer]

/-- The answers are those that the script holds from its place on; it goes on behind them. -/
theorem run_script {p : Draws α} {answers : List Int} {a : α} (h : Returns p answers a)
    (used more : List Int) :
    (p.run (Source.script (used ++ answers ++ more) used.length)).result = .ok a ∧
      (p.run (Source.script (used ++ answers ++ more) used.length)).source =
        .script (used ++ answers ++ more) (used.length + answers.length) := by
  induction h generalizing used with
  | done => simp [run_done]
  | warn _ ih => rw [run_warn]; exact ih used
  | @draw r next answer answers a _ ih =>
    have hget : (used ++ answer :: answers ++ more)[used.length]? = some answer := by simp
    rw [run_draw_ok (next_script hget r)]
    simpa [Run.after, Nat.add_assoc, Nat.add_comm 1] using ih (used ++ [answer])

/-- A script that ends before the last answer is used up, and has none for the next request. -/
theorem run_script_short {p : Draws α} {answers missing : List Int} {a : α}
    (h : Returns p (answers ++ missing) a) (hm : missing ≠ []) (used : List Int) :
    (p.run (Source.script (used ++ answers) used.length)).result =
        .error (.source (.exhausted (used ++ answers).length)) ∧
      (p.run (Source.script (used ++ answers) used.length)).source =
        .script (used ++ answers) (used ++ answers).length := by
  generalize ha : answers ++ missing = all at h
  induction h generalizing answers used with
  | done => exact absurd (List.append_eq_nil_iff.mp ha).2 hm
  | warn _ ih => rw [run_warn]; exact ih used ha
  | @draw r next answer rest a _ ih =>
    cases answers with
    | nil =>
      rw [List.append_nil, run_draw_error (next_script_end used r)]
      exact ⟨rfl, rfl⟩
    | cons value answers =>
      obtain ⟨rfl, htail⟩ := List.cons_eq_cons.mp ha
      have hget : (used ++ value :: answers)[used.length]? = some value := by simp
      rw [run_draw_ok (next_script hget r)]
      simpa [Run.after] using ih (used ++ [value]) htail

end Draws

end Dice
