import Dice.Draws

/-!
# Dice.Proofs.Draws.Returns

Computations led by a list of answers, whatever source they come from.

* `Draws.announce` : a computation with warnings in front of it.
* `Draws.Returns p answers a` : the answers lead through `p` to the result `a`, each of them used.
* `returns_bind_iff` : one computation after another uses up one list of answers after another.
* `Returns.unique` : the answers fix the result.
* `bind_congr`, `bind_done_eq_self` : only results that answers lead to matter to what follows.
-/

namespace Dice

namespace Draws

variable {α β γ : Type}

@[simp] theorem done_bind (a : α) (f : α → Draws β) : (Draws.done a).bind f = f a := rfl

@[simp] theorem fail_bind (e : RollError) (f : α → Draws β) : (Draws.fail e).bind f = .fail e := rfl

@[simp] theorem warn_bind (w : Warning) (p : Draws α) (f : α → Draws β) :
    (Draws.warn w p).bind f = .warn w (p.bind f) := rfl

@[simp] theorem draw_bind (r : Request) (next : Int → Draws α) (f : α → Draws β) :
    (Draws.draw r next).bind f = .draw r fun answer => (next answer).bind f := rfl

theorem bind_assoc (p : Draws α) (f : α → Draws β) (g : β → Draws γ) :
    (p.bind f).bind g = p.bind fun a => (f a).bind g := by
  induction p with
  | done a => rfl
  | fail e => rfl
  | warn w rest ih => simp [ih]
  | draw r next ih => simp [ih]

/-- Warnings given one after another, before all else. -/
def announce (warnings : List Warning) (p : Draws α) : Draws α :=
  warnings.foldr .warn p

@[simp] theorem announce_nil (p : Draws α) : announce [] p = p := rfl

@[simp] theorem announce_cons (w : Warning) (warnings : List Warning) (p : Draws α) :
    announce (w :: warnings) p = .warn w (announce warnings p) := rfl

theorem announce_bind (warnings : List Warning) (p : Draws α) (f : α → Draws β) :
    (announce warnings p).bind f = announce warnings (p.bind f) := by
  induction warnings with
  | nil => rfl
  | cons w warnings ih => simp [ih]

/-- Every answer is used, in order, and the result is reached with the last one. -/
inductive Returns : Draws α → List Int → α → Prop where
  | done {a : α} : Returns (.done a) [] a
  | warn {w : Warning} {rest : Draws α} {answers : List Int} {a : α} :
      Returns rest answers a → Returns (.warn w rest) answers a
  | draw {r : Request} {next : Int → Draws α} {answer : Int} {answers : List Int} {a : α} :
      Returns (next answer) answers a → Returns (.draw r next) (answer :: answers) a

@[simp] theorem returns_done_iff {a b : α} {answers : List Int} :
    Returns (.done a) answers b ↔ answers = [] ∧ b = a := by
  constructor
  · intro h; cases h; exact ⟨rfl, rfl⟩
  · rintro ⟨rfl, rfl⟩; exact .done

@[simp] theorem not_returns_fail {e : RollError} {a : α} {answers : List Int} :
    ¬ Returns (.fail e) answers a := by
  intro h; cases h

@[simp] theorem returns_warn_iff {w : Warning} {p : Draws α} {answers : List Int} {a : α} :
    Returns (.warn w p) answers a ↔ Returns p answers a := by
  constructor
  · intro h; cases h; assumption
  · exact .warn

@[simp] theorem returns_draw_iff {r : Request} {next : Int → Draws α} {answers : List Int} {a : α} :
    Returns (.draw r next) answers a ↔
      ∃ answer rest, answers = answer :: rest ∧ Returns (next answer) rest a := by
  constructor
  · intro h
    cases h with
    | draw h => exact ⟨_, _, rfl, h⟩
  · rintro ⟨answer, rest, rfl, h⟩
    exact .draw h

@[simp] theorem returns_announce_iff {warnings : List Warning} {p : Draws α} {a : α}
    {answers : List Int} : Returns (announce warnings p) answers a ↔ Returns p answers a := by
  induction warnings with
  | nil => exact Iff.rfl
  | cons w warnings ih => rw [announce_cons, returns_warn_iff, ih]

theorem Returns.bind {p : Draws α} {f : α → Draws β} {first rest : List Int} {a : α} {b : β}
    (hp : Returns p first a) (hf : Returns (f a) rest b) : Returns (p.bind f) (first ++ rest) b := by
  induction hp with
  | done => exact hf
  | warn _ ih => exact .warn (ih hf)
  | draw _ ih => exact .draw (ih hf)

theorem returns_bind_iff {p : Draws α} {f : α → Draws β} {answers : List Int} {b : β} :
    Returns (p.bind f) answers b ↔
      ∃ first a rest, answers = first ++ rest ∧ Returns p first a ∧ Returns (f a) rest b := by
  constructor
  · intro h
    induction p generalizing answers with
    | done a => exact ⟨[], a, answers, rfl, .done, h⟩
    | fail e => exact absurd h not_returns_fail
    | warn w p ih =>
      obtain ⟨first, a, rest, rfl, hp, hf⟩ := ih (returns_warn_iff.mp h)
      exact ⟨first, a, rest, rfl, .warn hp, hf⟩
    | draw r next ih =>
      obtain ⟨answer, others, rfl, hn⟩ := returns_draw_iff.mp h
      obtain ⟨first, a, rest, rfl, hp, hf⟩ := ih answer hn
      exact ⟨answer :: first, a, rest, rfl, .draw hp, hf⟩
  · rintro ⟨first, a, rest, rfl, hp, hf⟩
    exact hp.bind hf

@[simp] theorem returns_ofExcept_iff {ε : Type} {error : ε → RollError} {x : Except ε α}
    {answers : List Int} {a : α} :
    Returns (ofExcept error x) answers a ↔ answers = [] ∧ x = .ok a := by
  cases x with
  | error e => simp [ofExcept]
  | ok b => simp [ofExcept, eq_comm]

theorem Returns.unique {p : Draws α} {answers : List Int} {a b : α} (ha : Returns p answers a)
    (hb : Returns p answers b) : a = b := by
  induction ha with
  | done => exact (returns_done_iff.mp hb).2.symm
  | warn _ ih => exact ih (returns_warn_iff.mp hb)
  | draw _ ih =>
    obtain ⟨_, _, h, hb⟩ := returns_draw_iff.mp hb
    cases h
    exact ih hb

/-- Only results that answers lead to are ever used. -/
theorem bind_congr {p : Draws α} {f g : α → Draws β}
    (h : ∀ answers a, Returns p answers a → f a = g a) : p.bind f = p.bind g := by
  induction p with
  | done a => exact h [] a .done
  | fail e => rfl
  | warn w rest ih => exact congrArg (Draws.warn w) (ih fun answers a ha => h answers a (.warn ha))
  | draw r next ih =>
    refine congrArg (Draws.draw r) (funext fun answer => ?_)
    exact ih answer fun answers a ha => h (answer :: answers) a (.draw ha)

theorem bind_done (p : Draws α) : p.bind .done = p := by
  induction p with
  | done a => rfl
  | fail e => rfl
  | warn w rest ih => exact congrArg (Draws.warn w) ih
  | draw r next ih => exact congrArg (Draws.draw r) (funext ih)

/-- What changes no result that answers can lead to changes nothing. -/
theorem bind_done_eq_self {p : Draws α} {f : α → α}
    (h : ∀ answers a, Returns p answers a → f a = a) : (p.bind fun a => .done (f a)) = p :=
  (bind_congr fun answers a ha => congrArg Draws.done (h answers a ha)).trans (bind_done p)

end Draws

end Dice
