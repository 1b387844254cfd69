import Dice.Datum
import Dice.Moment
import Dice.Source.Basic
import Dice.Text.Numeral

/-!
# Dice.Seed

Seeds for random sources.

* `SeedError`, `integerOf` : whatever stands for an integer as that integer;
* `ofMoment` : a seed made of the time of the day;
* `choose` : a seed given, or else one made of the time.
-/

namespace Dice.Seed

inductive SeedError where
  | malformed (text : String)
  | tooLong (digits : Nat)
  | infinite
  | undefined
  | notANumber (className : String)

namespace SeedError

/-- A message shows this much of a text at most, with its quotes. -/
def shownLength : Nat := 200

def message : SeedError → String
  | .malformed text =>
    "invalid literal for int() with base 10: " ++
      String.ofList ((Text.quoted text).toList.take shownLength)
  | .tooLong digits =>
    "Exceeds the limit (" ++ toString Text.digitLimit ++
      " digits) for integer string conversion: value has " ++ toString digits ++
      " digits; use sys.set_int_max_str_digits() to increase the limit"
  | .infinite => "cannot convert float infinity to integer"
  | .undefined => "cannot convert float NaN to integer"
  | .notANumber className =>
    "int() argument must be a string, a bytes-like object or a real number, not " ++
      Text.quoted className

end SeedError

/-- A fraction is cut off. -/
def integerOf : Datum → Except SeedError Int
  | .int n => .ok n
  | .bool b => .ok (if b then 1 else 0)
  | .float x =>
    match Decimal.truncated? x with
    | some n => .ok n
    | none => .error (if x != x then .undefined else .infinite)
  | .text s =>
    match Text.readInt s with
    | .ok n => .ok n
    | .error .malformed => .error (.malformed s)
    | .error (.tooLong digits) => .error (.tooLong digits)
  | d => .error (.notANumber d.className)

/-! ## Seeds from the clock -/

/-- The seconds since the epoch, rounded down from a number of double precision. Far from the epoch
that number may have been rounded up to the next second. -/
def secondsOf (m : Moment) : Int :=
  let stamp := Float.ofInt m.wholeSeconds + Float.ofNat m.microsecond / 1000000
  (Decimal.floor? stamp).getD m.wholeSeconds

def modulus : Float := Float.ofNat Source.seedCount

/-- The seconds are multiplied by one more than each digit of the microseconds, from the last one
on. After the first digit the digits keep the fractions below them. At most six rounds are made,
since each divides the microseconds by ten. -/
def mix : Nat → Float → Float → Float
  | 0, seconds, _ => seconds
  | rounds + 1, seconds, micro =>
    if 1 < micro then
      mix rounds (seconds * (Decimal.floorMod micro 10 + 1)) (micro / 10)
    else seconds

/-- The first round is one of integers. -/
def ofMoment (m : Moment) : Nat :=
  if m.microsecond ≤ 1 then (secondsOf m % (Source.seedCount : Int)).toNat
  else
    let seconds := secondsOf m * ((m.microsecond % 10 : Nat) + 1)
    let micro := Float.ofNat m.microsecond / 10
    if 1 < micro then
      let mixed := mix 6 (Float.ofInt seconds) micro
      ((Decimal.truncated? (Decimal.floorMod mixed modulus)).getD 0).toNat
    else (seconds % (Source.seedCount : Int)).toNat

/-- A number brought into the range of seeds. A seed that counts as false is none. -/
def reduce : Datum → Option Nat
  | .int n => some (n % (Source.seedCount : Int)).toNat
  | .bool b => some (if b then 1 else 0)
  | .float x => (Decimal.truncated? (Decimal.floorMod x modulus)).map Int.toNat
  | _ => none

def choose (given : Datum) (now : Moment) : Nat :=
  if given.truthy then (reduce given).getD 0 else ofMoment now % Source.seedCount

end Dice.Seed
