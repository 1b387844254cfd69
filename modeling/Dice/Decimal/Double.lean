/-!
# Dice.Decimal.Double

The exact value of a floating point number of double precision.

* `Parts` : sign, significand and exponent of a finite number, `significand * 2 ^ exponent`;
* `parts?` : the parts of a number that is finite;
* `truncated?`, `floor?` : its whole part, and the next integer below;
* `remainder` : the exact remainder of two positive numbers;
* `floorMod` : the remainder with the sign of the divisor.
-/

namespace Dice.Decimal

/-- The absolute value is `significand * 2 ^ exponent`. -/
structure Parts where
  negative : Bool
  significand : Nat
  exponent : Int

/-- The number of different fractions. -/
def fractionCount : Nat := Nat.pow 2 52

/-- Fifty-two bits of fraction and eleven of exponent; the greatest exponent is no number. -/
def parts? (x : Float) : Option Parts :=
  let bits : Nat := x.toBits.toNat
  let fraction : Nat := bits % fractionCount
  let exponent : Nat := bits / fractionCount % 2048
  let negative := bits / fractionCount / 2048 == 1
  if exponent = 2047 then none
  else if exponent = 0 then some ⟨negative, fraction, -1074⟩
  else some ⟨negative, fraction + fractionCount, (exponent : Int) - 1075⟩

namespace Parts

/-- The absolute value as a quotient of two natural numbers. -/
def quotient (p : Parts) : Nat × Nat :=
  (p.significand * Nat.pow 2 p.exponent.toNat, Nat.pow 2 (-p.exponent).toNat)

def signed (p : Parts) (n : Nat) : Int :=
  if p.negative then -(n : Int) else n

end Parts

/-- The whole part, the fraction cut off. -/
def truncated? (x : Float) : Option Int :=
  (parts? x).map fun p => p.signed (p.quotient.1 / p.quotient.2)

/-- The greatest integer that is not above the number. -/
def floor? (x : Float) : Option Int :=
  (parts? x).map fun p => p.signed p.quotient.1 / (p.quotient.2 : Int)

/-- The number as an integer, if it is one. -/
def integer? (x : Float) : Option Int :=
  match parts? x with
  | none => none
  | some p => if p.quotient.1 % p.quotient.2 = 0 then truncated? x else none

/-- What is left of the absolute value of `x` after taking away the absolute value of `y` as often
as possible. On the finer of the two grids both are whole, and the result has no more digits than
they have, so it is exact. -/
def remainder (x y : Float) : Float :=
  match parts? x, parts? y with
  | some p, some q =>
    let exponent := min p.exponent q.exponent
    let scaled (r : Parts) := r.significand * Nat.pow 2 (r.exponent - exponent).toNat
    (Float.ofNat (scaled p % scaled q)).scaleB exponent
  | _, _ => x

/-- The remainder for a positive divisor; a negative number is taken up by one divisor. -/
def floorMod (x y : Float) : Float :=
  let r := remainder x y
  if x < 0 then (if r == 0 then r else y - r) else r

end Dice.Decimal
