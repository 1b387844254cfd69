import Dice.Proofs.Draws.Run

/-!
# Dice.Proofs.Draws.Faultless

Computations that do not fail by themselves, or only in given ways.

* `Draws.Confined P Q p` : all requests of `p` are of a given kind, and so are its own failures.
* `Draws.Within P p` : no answers lead `p` to a failure of its own, and all its requests are of a
  given kind.
* `Draws.Faultless p` : so with requests of any kind.
* `Confined.bind`, `Within.bind` : what follows matters only for the results that answers can lead
  to.
* `sourceAfter s requests` : the source after requests made one after another.
* `Confined.requests`, `Confined.run` : what is requested in a run, and how it ends.
* `Faultless.run` : a run of such a computation ends with a result, or with the failure of the
  source at its last request.
-/

namespace Dice

namespace Draws

variable {α β : Type}

variable {P : Request → Prop} {Q : RollError → Prop}

def Confined (P : Request → Prop) (Q : RollError → Prop) : Draws α → Prop
  | .done _ => True
  | .fail e => Q e
  | .warn _ rest => rest.Confined P Q
  | .draw r next => P r ∧ ∀ answer, (next answer).Confined P Q

theorem Confined.bind {p : Draws α} {f : α → Draws β} (hp : p.Confined P Q)
    (hf : ∀ answers a, Returns p answers a → (f a).Confined P Q) : (p.bind f).Confined P Q := by
  induction p with
  | done a => exact hf [] a .done
  | fail e => exact hp
  | warn w rest ih => exact ih hp fun answers a h => hf answers a (.warn h)
  | draw r next ih =>
    obtain ⟨hr, hnext⟩ := hp
    refine ⟨hr, fun answer => ?_⟩
    exact ih answer (hnext answer) fun answers a h => hf (answer :: answers) a (.draw h)

theorem confined_ofExcept {ε : Type} {error : ε → RollError} {x : Except ε α}
    (hx : ∀ e, x = .error e → Q (error e)) : (ofExcept error x).Confined P Q := by
  cases x with
  | ok a => trivial
  | error e => exact hx e rfl

def Within (P : Request → Prop) : Draws α → Prop
  | .done _ => True
  | .fail _ => False
  | .warn _ rest => rest.Within P
  | .draw r next => P r ∧ ∀ answer, (next answer).Within P

def Faultless (p : Draws α) : Prop :=
  p.Within fun _ => True

theorem within_iff {p : Draws α} : p.Within P ↔ p.Confined P fun _ => False := by
  induction p with
  | done a => exact Iff.rfl
  | fail e => exact Iff.rfl
  | warn w rest ih => exact ih
  | draw r next ih => exact and_congr_right fun _ => forall_congr' ih

theorem Confined.mono {Q' : RollError → Prop} {p : Draws α} (hp : p.Confined P Q)
    (hQ : ∀ e, Q e → Q' e) : p.Confined P Q' := by
  induction p with
  | done a => trivial
  | fail e => exact hQ e hp
  | warn w rest ih => exact ih hp
  | draw r next ih => exact ⟨hp.1, fun answer => ih answer (hp.2 answer)⟩

theorem Within.confined {p : Draws α} (hp : p.Within P) (Q : RollError → Prop) :
    p.Confined P Q :=
  (within_iff.mp hp).mono fun _ => False.elim

theorem Within.bind {p : Draws α} {f : α → Draws β} (hp : p.Within P)
    (hf : ∀ answers a, Returns p answers a → (f a).Within P) : (p.bind f).Within P :=
  within_iff.mpr ((within_iff.mp hp).bind fun answers a h => within_iff.mp (hf answers a h))

/-! ## Runs -/

variable {σ : Type} [RandomSource σ]

/-- It does not matter whether the requests are answered. -/
def sourceAfter (s : σ) : List Request → σ
  | [] => s
  | r :: requests => sourceAfter (RandomSource.next s r).2 requests

theorem Confined.requests {p : Draws α} (hp : p.Confined P Q) (s : σ) :
    ∀ r ∈ (p.run s).requests, P r := by
  induction p generalizing s with
  | done a => exact fun _ h => nomatch h
  | fail e => exact fun _ h => nomatch h
  | warn w rest ih =>
    rw [run_warn]
    exact ih hp s
  | draw r next ih =>
    cases hs : RandomSource.next s r with
    | mk answer s' =>
      cases answer with
      | error e =>
        rw [run_draw_error hs]
        exact List.forall_mem_singleton.mpr hp.1
      | ok value =>
        rw [run_draw_ok hs]
        exact List.forall_mem_cons.mpr ⟨hp.1, ih value (hp.2 value) s'⟩

theorem Confined.run {p : Draws α} (hp : p.Confined P Q) (s : σ) :
    (∃ a, (p.run s).result = .ok a) ∨ (∃ e, (p.run s).result = .error (.roll e) ∧ Q e) ∨
      ∃ answered last e, (p.run s).requests = answered ++ [last] ∧
        (RandomSource.next (sourceAfter s answered) last).1 = .error e ∧
        (p.run s).result = .error (.source e) := by
  induction p generalizing s with
  | done a => exact .inl ⟨a, rfl⟩
  | fail e => exact .inr (.inl ⟨e, rfl, hp⟩)
  | warn w rest ih =>
    rw [run_warn]
    exact ih hp s
  | draw r next ih =>
    cases hs : RandomSource.next s r with
    | mk answer s' =>
      cases answer with
      | error e =>
        rw [run_draw_error hs]
        exact .inr (.inr ⟨[], r, e, rfl, congrArg Prod.fst hs, rfl⟩)
      | ok value =>
        rw [run_draw_ok hs]
        rcases ih value (hp.2 value) s' with
          hok | hfail | ⟨answered, last, e, hrequests, herror, he⟩
        · exact .inl hok
        · exact .inr (.inl hfail)
        · refine .inr (.inr ⟨r :: answered, last, e, ?_, ?_, he⟩)
          · rw [Run.after, hrequests]
            rfl
          · rw [sourceAfter, hs]
            exact herror

theorem Faultless.run {p : Draws α} (hp : p.Faultless) (s : σ) :
    (∃ a, (p.run s).result = .ok a) ∨
      ∃ answered last e, (p.run s).requests = answered ++ [last] ∧
        (RandomSource.next (sourceAfter s answered) last).1 = .error e ∧
        (p.run s).result = .error (.source e) := by
  rcases (within_iff.mp hp).run s with hok | ⟨e, _, hfalse⟩ | hsource
  · exact .inl hok
  · exact hfalse.elim
  · exact .inr hsource

end Draws

end Dice
