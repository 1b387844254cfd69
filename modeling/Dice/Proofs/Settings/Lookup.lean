import Dice.Datum.Parts
import Dice.Settings

/-!
# Dice.Proofs.Settings.Lookup

Paths of keys through settings, and where they break off.

* `Leads settings keys found` : every key stands in the value that the keys before it lead to, and
  all of them lead to `found`.
* `BreaksOff settings keys key found` : the keys in front of `key` lead to `found`, which has nothing
  under `key`.
* `leads_or_breaksOff` : there is no third way.
* `limitsFrom_of_missing`, `limitsFrom_of_not_map` : the limits in a settings file, where their paths
  break off at a map and elsewhere.
* `lookupOr_of_path` : the default stands in for a key that a map does not have; what is no map stops
  the look-up instead.
-/

namespace Dice.Settings

/-! ## Paths -/

/-- Only maps have fields. -/
inductive Leads : Datum → List String → Datum → Prop where
  | nil (settings : Datum) : Leads settings [] settings
  | cons {settings value found : Datum} {key : String} {keys : List String} :
      settings.field? key = some value → Leads value keys found →
      Leads settings (key :: keys) found

def BreaksOff (settings : Datum) (keys : List String) (key : String) (found : Datum) : Prop :=
  ∃ before after, keys = before ++ key :: after ∧ Leads settings before found ∧
    found.field? key = none

def IsMap (d : Datum) : Prop :=
  ∃ entries, d = .map entries

variable {settings found : Datum} {keys : List String} {key : String}

theorem leads_or_breaksOff (settings : Datum) (keys : List String) :
    (∃ found, Leads settings keys found) ∨ ∃ key found, BreaksOff settings keys key found := by
  induction keys generalizing settings with
  | nil => exact .inl ⟨settings, .nil settings⟩
  | cons key keys ih =>
    cases hfield : settings.field? key with
    | none => exact .inr ⟨key, settings, [], keys, rfl, .nil settings, hfield⟩
    | some value =>
      rcases ih value with ⟨found, hleads⟩ | ⟨key', found, before, after, rfl, hleads, hnone⟩
      · exact .inl ⟨found, .cons hfield hleads⟩
      · exact .inr ⟨key', found, key :: before, after, rfl, .cons hfield hleads, hnone⟩

/-! ## One key -/

theorem find_of_field {value : Datum} (h : settings.field? key = some value) :
    find settings key = .ok value := by
  cases settings with
  | map entries =>
    have hentry : Datum.find? key entries = some value := h
    simp only [find, hentry]
  | _ => cases h

theorem find_of_missing (hmap : IsMap found) (h : found.field? key = none) :
    find found key = .error (.missing key) := by
  obtain ⟨entries, rfl⟩ := hmap
  have hentry : Datum.find? key entries = none := h
  simp only [find, hentry]

theorem find_of_not_map (h : ¬ IsMap found) : find found key = .error (.notAMap found) := by
  cases found with
  | map entries => exact absurd ⟨entries, rfl⟩ h
  | _ => rfl

/-! ## All keys -/

theorem Leads.lookup_append (h : Leads settings keys found) (after : List String) :
    lookup settings (keys ++ after) = lookup found after := by
  induction h with
  | nil settings => rfl
  | cons hfield _ ih => rw [List.cons_append, lookup, find_of_field hfield, ← ih]

theorem Leads.lookup_eq (h : Leads settings keys found) : lookup settings keys = .ok found := by
  have happend := h.lookup_append []
  rwa [List.append_nil] at happend

theorem BreaksOff.lookup_eq (h : BreaksOff settings keys key found) {e : LookupError}
    (he : find found key = .error e) : lookup settings keys = .error e := by
  obtain ⟨before, after, rfl, hleads, _⟩ := h
  rw [hleads.lookup_append, lookup, he]

theorem BreaksOff.field?_eq_none (h : BreaksOff settings keys key found) :
    found.field? key = none := by
  obtain ⟨before, after, _, _, hnone⟩ := h
  exact hnone

/-! ## With a default -/

variable {default : Datum}

theorem Leads.lookupOr_eq (h : Leads settings keys found) :
    lookupOr settings keys (some default) = .ok found := by
  simp only [lookupOr, h.lookup_eq]

theorem BreaksOff.lookupOr_of_map (h : BreaksOff settings keys key found) (hmap : IsMap found) :
    lookupOr settings keys (some default) = .ok default := by
  simp only [lookupOr, h.lookup_eq (find_of_missing hmap h.field?_eq_none)]

theorem BreaksOff.lookupOr_of_not_map (h : BreaksOff settings keys key found)
    (hmap : ¬ IsMap found) : lookupOr settings keys (some default) = .error (.notAMap found) := by
  simp only [lookupOr, h.lookup_eq (find_of_not_map hmap)]

/-! ## Limits -/

/-- The standard limits stand in for a section that is missing, and for keys that it does not have. -/
theorem limitsFrom_of_missing
    (h : ∀ name ∈ [explosionsName, compoundsName], ∃ key found,
      BreaksOff settings ["evaluator", name] key found ∧ IsMap found) :
    limitsFrom settings = .ok .standard := by
  rw [List.forall_mem_cons, List.forall_mem_singleton] at h
  obtain ⟨⟨_, _, hexplosions, hmap⟩, ⟨_, _, hcompounds, hmap'⟩⟩ := h
  simp only [limitsFrom, hexplosions.lookupOr_of_map hmap, hcompounds.lookupOr_of_map hmap']
  rfl

/-- In a file with no settings at all nothing is found. -/
example : limitsFrom (.map []) = .ok .standard := rfl

theorem limitsFrom_of_not_map (h : BreaksOff settings ["evaluator", explosionsName] key found)
    (hmap : ¬ IsMap found) : limitsFrom settings = .error (.lookup (.notAMap found)) := by
  simp only [limitsFrom, h.lookupOr_of_not_map hmap]

/-! ## Every path -/

/-- With a default the look-up gives what stands at the end of a path that is there, and the default
if a map on the way does not have the next key. If something else stands there, be it nothing at all,
it fails and names that. -/
theorem lookupOr_of_path (settings : Datum) (keys : List String) (default : Datum) :
    ((∃ found, Leads settings keys found) ∨ ∃ key found, BreaksOff settings keys key found) ∧
      (∀ found, Leads settings keys found →
        lookupOr settings keys (some default) = .ok found) ∧
      (∀ key found, BreaksOff settings keys key found → IsMap found →
        lookupOr settings keys (some default) = .ok default) ∧
      ∀ key found, BreaksOff settings keys key found → ¬ IsMap found →
        lookupOr settings keys (some default) = .error (.notAMap found) :=
  ⟨leads_or_breaksOff settings keys, fun _ h => h.lookupOr_eq,
    fun _ _ h hmap => h.lookupOr_of_map hmap, fun _ _ h hmap => h.lookupOr_of_not_map hmap⟩

/-- A section without any entries, as it stands in a file, is no map. -/
theorem lookupOr_empty_section :
    let settings : Datum := .map [("evaluator", .null)]
    BreaksOff settings ["evaluator", "max_explosions"] "max_explosions" .null ∧
      lookupOr settings ["evaluator", "max_explosions"] (some (.int 100)) =
        .error (.notAMap .null) ∧
      limitsFrom settings = .error (.lookup (.notAMap .null)) := by
  intro settings
  have hbreaks : BreaksOff settings ["evaluator", "max_explosions"] "max_explosions" .null :=
    ⟨["evaluator"], [], rfl, .cons rfl (.nil _), rfl⟩
  have hmap : ¬ IsMap .null := by rintro ⟨entries, h⟩; cases h
  exact ⟨hbreaks, hbreaks.lookupOr_of_not_map hmap, limitsFrom_of_not_map hbreaks hmap⟩

end Dice.Settings
