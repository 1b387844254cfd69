import Mathlib.Algebra.Group.Nat.Defs
import Dice.Text.Numeral

/-!
# Dice.Proofs.Text.Numeral

Numbers written in plain digits and read back.

* `isDigit_iff`, `isDigit_of_isBlank` : plain digits, which are no blanks;
* `ofDigits_toDigits` : the digits of a number have its value;
* `isDigit_of_mem_toDigits` : and are digits;
* `length_toDigits_ofDigits_le` : no run of digits is shorter than the numeral of its value.
-/

namespace Dice

namespace Text

theorem isDigit_iff {c : Char} : isDigit c = true ↔ 48 ≤ c.toNat ∧ c.toNat ≤ 57 := by
  simp only [isDigit, Bool.and_eq_true, decide_eq_true_eq]
  exact Iff.rfl

theorem isDigit_of_isBlank {c : Char} (h : isBlank c = true) : isDigit c = false := by
  rw [Bool.eq_false_iff]
  intro hd
  have hrange := isDigit_iff.mp hd
  simp only [isBlank, Bool.or_eq_true, Bool.and_eq_true, decide_eq_true_eq, beq_iff_eq] at h
  omega

theorem ofDigits_toDigits (n : Nat) : ofDigits (Nat.toDigits 10 n) = n :=
  Nat.ofDigitChars_ten_toDigits

theorem isDigit_of_mem_toDigits {n : Nat} {c : Char} (h : c ∈ Nat.toDigits 10 n) :
    isDigit c = true := by
  have hdigit := Nat.isDigit_of_mem_toDigits (by decide) (by decide) h
  simp only [Char.isDigit, Bool.and_eq_true, decide_eq_true_eq] at hdigit
  exact isDigit_iff.mpr hdigit

theorem ofDigits_lt_pow {ds : List Char} (h : ∀ c ∈ ds, isDigit c = true) :
    ofDigits ds < 10 ^ ds.length := by
  induction ds with
  | nil => decide
  | cons c ds ih =>
    obtain ⟨hc, hds⟩ := List.forall_mem_cons.mp h
    have hvalue : ofDigits (c :: ds) = 10 ^ ds.length * (c.toNat - 48) + ofDigits ds := by
      have hsum : Nat.ofDigitChars 10 ds (c.toNat - 48) = _ := Nat.ofDigitChars_eq_ofDigitChars_zero
      simpa [ofDigits, Nat.ofDigitChars] using hsum
    have hdigit := isDigit_iff.mp hc
    have hlt := ih hds
    rw [hvalue, List.length_cons, Nat.pow_succ]
    calc 10 ^ ds.length * (c.toNat - 48) + ofDigits ds
        < 10 ^ ds.length * (c.toNat - 48) + 10 ^ ds.length := by omega
      _ = 10 ^ ds.length * (c.toNat - 48 + 1) := by rw [Nat.mul_add, Nat.mul_one]
      _ ≤ 10 ^ ds.length * 10 := Nat.mul_le_mul_left _ (by omega)

theorem length_toDigits_ofDigits_le {ds : List Char} (hne : ds ≠ [])
    (h : ∀ c ∈ ds, isDigit c = true) : (Nat.toDigits 10 (ofDigits ds)).length ≤ ds.length :=
  (Nat.length_toDigits_le_iff (by decide) (List.length_pos_iff.mpr hne)).mpr (ofDigits_lt_pow h)

end Text

end Dice
