import Dice.Parser.Basic

/-!
# Dice.Proofs.Parser.Nesting

Choices of choices, and sequences of sequences.

* `Outcome.orElse`, `Outcome.bind` : what a choice and a sequence make of the answer of a member.
* `runFirst_append`, `runAll_append` : the members up to any place, and then the others.
* `joinNames_map_flatten` : a group is named as its members are.
* `alternative_cons_alternative` : a choice in front of other members of a choice.
* `nested_eq_flat` : members in groups, or without them.
-/

namespace Dice

namespace Parser

variable {α β γ : Type}

/-! ## Answers of members -/

/-- Of the answers to a choice the first counts, unless it is a failure at the start. -/
def Outcome.orElse (start : Nat) (o rest : Outcome α) : Outcome α :=
  match o with
  | .success a next => .success a next
  | .failure expected offset => if offset = start then rest else .failure expected offset
  | .overlong digits => .overlong digits

theorem Outcome.orElse_assoc (start : Nat) (o o' o'' : Outcome α) :
    (o.orElse start o').orElse start o'' = o.orElse start (o'.orElse start o'') := by
  cases o with
  | success a next => rfl
  | failure expected offset => by_cases h : offset = start <;> simp [orElse, h]
  | overlong digits => rfl

/-- A success goes on, and nothing else does. -/
def Outcome.bind (o : Outcome α) (f : α → Cursor → Outcome β) : Outcome β :=
  match o with
  | .success a next => f a next
  | .failure expected offset => .failure expected offset
  | .overlong digits => .overlong digits

theorem Outcome.map_bind (o : Outcome α) (f : α → Cursor → Outcome β) (g : β → γ) :
    (o.bind f).map g = o.bind fun a next => (f a next).map g := by
  cases o <;> rfl

theorem Outcome.bind_map (o : Outcome α) (f : α → β) (g : β → Cursor → Outcome γ) :
    (o.map f).bind g = o.bind fun a next => g (f a) next := by
  cases o <;> rfl

theorem Outcome.bind_assoc (o : Outcome α) (f : α → Cursor → Outcome β)
    (g : β → Cursor → Outcome γ) :
    (o.bind f).bind g = o.bind fun a next => (f a next).bind g := by
  cases o <;> rfl

/-! ## Members -/

variable {ps qs : List (Parser α)}

theorem runFirst_cons (name : String) (p : Parser α) (ps : List (Parser α)) (c : Cursor) :
    runFirst name (p :: ps) c = (p.run c).orElse c.offset (runFirst name ps c) :=
  rfl

/-- The name of the first members alone makes no difference: it is not told if others follow. -/
theorem runFirst_append (name name' : String) (ps qs : List (Parser α)) (c : Cursor) :
    runFirst name (ps ++ qs) c = (runFirst name' ps c).orElse c.offset (runFirst name qs c) := by
  induction ps with
  | nil => simp [runFirst, Outcome.orElse]
  | cons p ps ih => rw [List.cons_append, runFirst_cons, runFirst_cons, Outcome.orElse_assoc, ih]

theorem runAll_cons (p : Parser α) (ps : List (Parser α)) (c : Cursor) :
    runAll (p :: ps) c =
      (p.run c).bind fun value next => (runAll ps next).map (value :: ·) :=
  rfl

theorem runAll_append (ps qs : List (Parser α)) (c : Cursor) :
    runAll (ps ++ qs) c =
      (runAll ps c).bind fun values next => (runAll qs next).map (values ++ ·) := by
  induction ps generalizing c with
  | nil => cases h : runAll qs c <;> simp [runAll, Outcome.bind, Outcome.map, h]
  | cons p ps ih =>
    rw [List.cons_append, runAll_cons, runAll_cons, Outcome.bind_assoc]
    congr 1
    funext value next
    rw [ih, Outcome.map_bind, Outcome.bind_map]
    simp only [Outcome.map_map, List.cons_append]

/-! ## Names -/

theorem joinNames_append (separator : String) (hps : ps ≠ []) (hqs : qs ≠ []) :
    joinNames separator (ps ++ qs) =
      joinNames separator ps ++ separator ++ joinNames separator qs := by
  rw [joinNames, List.map_append,
    String.intercalate_append_of_ne_nil (by simpa using hps) (by simpa using hqs)]
  rfl

theorem flatten_ne_nil {group : List α} {groups : List (List α)}
    (hgroups : ∀ g ∈ group :: groups, g ≠ []) : (group :: groups).flatten ≠ [] := by
  have hgroup := hgroups group List.mem_cons_self
  simp [hgroup]

/-- Parsers that are named after groups, as choices and sequences are. -/
theorem joinNames_map_flatten {separator : String} {ofGroup : List (Parser α) → Parser β}
    (hname : ∀ g, (ofGroup g).name = joinNames separator g) {groups : List (List (Parser α))}
    (hgroups : ∀ g ∈ groups, g ≠ []) :
    joinNames separator (groups.map ofGroup) = joinNames separator groups.flatten := by
  induction groups with
  | nil => rfl
  | cons group groups ih =>
    obtain ⟨hgroup, hrest⟩ := List.forall_mem_cons.mp hgroups
    cases groups with
    | nil => simpa [joinNames] using hname group
    | cons group' groups =>
      have hflat : (group' :: groups).flatten ≠ [] := flatten_ne_nil hrest
      rw [List.flatten_cons, joinNames_append separator hgroup hflat, ← ih hrest, ← hname]
      exact String.intercalate_cons_cons

/-! ## Groups -/

theorem runFirst_flatten (name : String) (groups : List (List (Parser α))) (c : Cursor) :
    runFirst name (groups.map alternative) c = runFirst name groups.flatten c := by
  induction groups with
  | nil => rfl
  | cons group groups ih =>
    rw [List.map_cons, runFirst_cons, ih, List.flatten_cons]
    exact (runFirst_append name (joinNames " or " group) group groups.flatten c).symm

theorem runAll_flatten (groups : List (List (Parser α))) (c : Cursor) :
    (runAll (groups.map sequence) c).map List.flatten = runAll groups.flatten c := by
  induction groups generalizing c with
  | nil => rfl
  | cons group groups ih =>
    rw [List.map_cons, runAll_cons, Outcome.map_bind, List.flatten_cons, runAll_append]
    simp only [← ih, Outcome.map_map, List.flatten_cons]
    rfl

theorem alternative_eq (hname : joinNames " or " ps = joinNames " or " qs)
    (hrun : ∀ name c, runFirst name ps c = runFirst name qs c) : alternative ps = alternative qs := by
  have hsame : runFirst (joinNames " or " qs) ps = runFirst (joinNames " or " qs) qs :=
    funext (hrun _)
  rw [alternative, alternative, hname, hsame]

/-- A choice that is the first member of another is as good as its members there. -/
theorem alternative_cons_alternative (hps : ps ≠ []) (hqs : qs ≠ []) :
    alternative (alternative ps :: qs) = alternative (ps ++ qs) := by
  refine alternative_eq ?_ fun name c => ?_
  · rw [joinNames_append _ hps hqs]
    exact String.intercalate_cons_of_ne_nil (by simpa using hqs)
  · exact (runFirst_append name (joinNames " or " ps) ps qs c).symm

/-- Members may be taken in groups or not. A choice of choices is the choice of all their members,
and a sequence of sequences is the sequence of all of them, with one list of values for the lists
that the groups give: they answer alike at every place, and they have the same name. -/
theorem nested_eq_flat (groups : List (List (Parser α))) (hgroups : ∀ g ∈ groups, g ≠ []) :
    alternative (groups.map alternative) = alternative groups.flatten ∧
      (sequence (groups.map sequence)).map List.flatten = sequence groups.flatten := by
  constructor
  · exact alternative_eq (joinNames_map_flatten (fun _ => rfl) hgroups)
      fun name c => runFirst_flatten name groups c
  · have hname : joinNames " " (groups.map sequence) = joinNames " " groups.flatten :=
      joinNames_map_flatten (fun _ => rfl) hgroups
    have hrun : (fun c => (runAll (groups.map sequence) c).map List.flatten) =
        runAll groups.flatten :=
      funext (runAll_flatten groups)
    rw [sequence, sequence, Parser.map, hname, hrun]

/-- The second group fails behind its first letter, so its other member is not tried. -/
theorem nested_eq_flat_consuming :
    let letters := ((char "k").andThen (char "h")).map (·.2)
    let groups := [[char "a"], [letters, char "k"]]
    (∀ g ∈ groups, g ≠ []) ∧
      (alternative (groups.map alternative)).run (.ofText "kl".toList 0) =
        .failure "'h'" 1 ∧
      (alternative (groups.map alternative)).run (.ofText "x".toList 0) =
        .failure "'a' or 'k' 'h' or 'k'" 0 ∧
      ((sequence (groups.map sequence)).map List.flatten).run (.ofText "akhk".toList 0) =
        .success ['a', 'h', 'k'] (.ofText "akhk".toList 4) := by
  intro letters groups
  have hgroups : ∀ g ∈ groups, g ≠ [] := by simp [groups]
  obtain ⟨hchoice, hsequence⟩ := nested_eq_flat groups hgroups
  rw [hchoice, hsequence]
  exact ⟨hgroups, by decide +kernel, by decide +kernel, by decide +kernel⟩

end Parser

end Dice
