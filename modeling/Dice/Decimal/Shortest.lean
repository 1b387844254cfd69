import Dice.Decimal.Double

/-!
# Dice.Decimal.Shortest

The decimal with the fewest digits that is nearer to a floating point number than to any other.

* `Digits` : a decimal as an integer and a power of ten;
* `rounds` : whether a decimal lies in the interval of numbers that round to a given one;
* `shortest` : the decimal with the fewest digits there, the nearest one of those;
* `Layout`, `Layout.write` : how the digits are laid out.
-/

namespace Dice.Decimal

/-- The value is `digits * 10 ^ exponent`. -/
structure Digits where
  digits : Nat
  exponent : Int

/-- Four times the ends of the interval around `significand * 2 ^ exponent`, without the power of
two. Below a power of two the numbers lie twice as close. -/
def interval (p : Parts) : Nat × Nat :=
  let below := if p.significand = fractionCount && -1074 < p.exponent then 1 else 2
  (4 * p.significand - below, 4 * p.significand + 2)

/-- Two quantities `a * 10 ^ k` and `b * 2 ^ e` brought to whole numbers by the same factor. -/
def common (a : Nat) (k : Int) (b : Nat) (e : Int) : Nat × Nat :=
  (a * Nat.pow 10 k.toNat * Nat.pow 2 (-e).toNat, b * Nat.pow 2 e.toNat * Nat.pow 10 (-k).toNat)

/-- The ends of the interval belong to it if the significand is even. -/
def rounds (p : Parts) (d : Digits) : Bool :=
  let (value, low) := common (4 * d.digits) d.exponent (interval p).1 p.exponent
  let (_, high) := common (4 * d.digits) d.exponent (interval p).2 p.exponent
  if p.significand % 2 = 0 then low ≤ value && value ≤ high else low < value && value < high

/-- The number of decimal digits before the point; zero or less if the number is below one. -/
def magnitude (p : Parts) : Int :=
  let (numerator, denominator) := p.quotient
  if denominator ≤ numerator then (Nat.toDigits 10 (numerator / denominator)).length
  else
    match (List.range 400).find? (fun n => denominator ≤ numerator * Nat.pow 10 (n + 1)) with
    | some zeros => -(zeros : Int)
    | none => -400

/-- The two neighbours of the number on the grid of a power of ten, the nearer one first; of two
equally near ones the even one. -/
def neighbours (p : Parts) (exponent : Int) : List Digits :=
  let (unit, value) := common 1 exponent p.significand p.exponent
  let below := value / unit
  let left := 2 * (value % unit)
  let nearBelow := left < unit || (left == unit && below % 2 == 0)
  if nearBelow then [⟨below, exponent⟩, ⟨below + 1, exponent⟩]
  else [⟨below + 1, exponent⟩, ⟨below, exponent⟩]

/-- Seventeen digits always suffice. -/
def shortest (p : Parts) : Digits :=
  let grids := (List.range 17).map fun (n : Nat) => magnitude p - 1 - (n : Int)
  ((grids.flatMap (neighbours p)).find? (rounds p)).getD ⟨0, 0⟩

/-- The power of ten of the first digit decides between plain and exponent form. -/
structure Layout where
  leastPlain : Int
  mostPlain : Int
  exponentWidth : Nat
  infinity : String
  undefined : String

/-- The digits with the point where the power of ten puts it; a whole number keeps one zero behind
the point. -/
def plainText (digits : List Char) (exponent : Int) : List Char :=
  let whole := digits.length + exponent
  if 0 ≤ exponent then digits ++ List.replicate exponent.toNat '0' ++ ['.', '0']
  else if 0 < whole then digits.take whole.toNat ++ '.' :: digits.drop whole.toNat
  else '0' :: '.' :: List.replicate (-whole).toNat '0' ++ digits

def exponentText (width : Nat) (digits : List Char) (exponent : Int) : List Char :=
  let power := exponent + digits.length - 1
  let powerDigits := Nat.toDigits 10 power.natAbs
  let point := if digits.length = 1 then [] else '.' :: digits.drop 1
  digits.take 1 ++ point ++ 'e' :: (if power < 0 then '-' else '+') ::
    (List.replicate (width - powerDigits.length) '0' ++ powerDigits)

def stripZeros (d : Digits) : List Char × Int :=
  let digits := Nat.toDigits 10 d.digits
  let kept := (digits.reverse.dropWhile (· == '0')).reverse
  (kept, d.exponent + (digits.length - kept.length : Nat))

namespace Layout

def write (layout : Layout) (x : Float) : String :=
  match parts? x with
  | none =>
    if x != x then layout.undefined
    else if x < 0 then "-" ++ layout.infinity
    else layout.infinity
  | some p =>
    let text :=
      if p.significand = 0 then ['0', '.', '0']
      else
        let (digits, exponent) := stripZeros (shortest p)
        let power := exponent + digits.length - 1
        if layout.leastPlain ≤ power && power ≤ layout.mostPlain then plainText digits exponent
        else exponentText layout.exponentWidth digits exponent
    String.ofList (if p.negative then '-' :: text else text)

end Layout

end Dice.Decimal
