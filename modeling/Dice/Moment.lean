/-!
# Dice.Moment

Times of the calendar.

* `Moment` : a time of the Gregorian calendar, in universal time;
* `Moment.wholeSeconds`, `Moment.ofMicroseconds` : times counted from the start of 1970;
* `Moment.text` : a time as logs show it.
-/

namespace Dice

structure Moment where
  year : Int
  month : Int
  day : Int
  hour : Int
  minute : Int
  second : Int
  microsecond : Nat

namespace Moment

/-! ## Counting -/

/-- Days since the first of January 1970. Years are counted from March, so that the day that is
sometimes missing is the last one. -/
def daysSinceEpoch (year month day : Int) : Int :=
  let fromMarch := (month + 9) % 12
  let year := if month ≤ 2 then year - 1 else year
  let era := year / 400
  let yearOfEra := year % 400
  let dayOfYear := (153 * fromMarch + 2) / 5 + day - 1
  let dayOfEra := yearOfEra * 365 + yearOfEra / 4 - yearOfEra / 100 + dayOfYear
  era * 146097 + dayOfEra - 719468

def wholeSeconds (m : Moment) : Int :=
  ((daysSinceEpoch m.year m.month m.day * 24 + m.hour) * 60 + m.minute) * 60 + m.second

/-- The year, month and day of a number of days since the epoch. Four centuries have always the
same number of days. -/
def dateOf (days : Int) : Int × Int × Int :=
  let era := (days + 719468) / 146097
  let dayOfEra := (days + 719468) % 146097
  let yearOfEra := (dayOfEra - dayOfEra / 1460 + dayOfEra / 36524 - dayOfEra / 146096) / 365
  let dayOfYear := dayOfEra - (365 * yearOfEra + yearOfEra / 4 - yearOfEra / 100)
  let fromMarch := (5 * dayOfYear + 2) / 153
  let month := if fromMarch < 10 then fromMarch + 3 else fromMarch - 9
  let year := yearOfEra + era * 400
  (if month ≤ 2 then year + 1 else year, month, dayOfYear - (153 * fromMarch + 2) / 5 + 1)

def ofMicroseconds (count : Int) : Moment :=
  let seconds := count / 1000000
  let (year, month, day) := dateOf (seconds / 86400)
  ⟨year, month, day, seconds % 86400 / 3600, seconds % 3600 / 60, seconds % 60,
    (count % 1000000).toNat⟩

def epoch : Moment :=
  ofMicroseconds 0

/-! ## Text -/

/-- A number filled up to a width with zeros. -/
def padded (width : Nat) (n : Int) : String :=
  let digits := toString n
  String.ofList (List.replicate (width - digits.length) '0') ++ digits

/-- Down to the thousandths of a second. -/
def text (m : Moment) : String :=
  padded 4 m.year ++ "-" ++ padded 2 m.month ++ "-" ++ padded 2 m.day ++ " " ++
    padded 2 m.hour ++ ":" ++ padded 2 m.minute ++ ":" ++ padded 2 m.second ++ "," ++
    padded 3 (m.microsecond / 1000)

end Moment

end Dice
