import EventSeal.Decimal

/-!
# Calendar time

Times are counted in milliseconds from the beginning of 1970 in universal
time. Here they are given as a date and a time of day in the Gregorian
calendar, carried on without end in both directions; year zero comes
before year one.

The date is found in eras of 400 years, each of 146097 days, with the year
beginning in March: then the leap day is the last of its year, and the
months before it have lengths in a fixed pattern (`153` days for five).
-/

namespace EventSeal.Calendar

structure Date where
  year : Int
  month : Nat
  day : Nat
deriving DecidableEq

/-- The date so many days after the first of January 1970. -/
def dateOfDays (days : Int) : Date :=
  let shifted := days + 719468
  let era := shifted.fdiv 146097
  let dayOfEra := (shifted.fmod 146097).toNat
  let yearOfEra := (dayOfEra - dayOfEra / 1460 + dayOfEra / 36524 - dayOfEra / 146096) / 365
  let dayOfYear := dayOfEra - (365 * yearOfEra + yearOfEra / 4 - yearOfEra / 100)
  let monthFromMarch := (5 * dayOfYear + 2) / 153
  let day := dayOfYear - (153 * monthFromMarch + 2) / 5 + 1
  let month := if monthFromMarch < 10 then monthFromMarch + 3 else monthFromMarch - 9
  ⟨era * 400 + yearOfEra + (if month ≤ 2 then 1 else 0), month, day⟩

structure Moment where
  date : Date
  /-- milliseconds since midnight -/
  millis : Nat
deriving DecidableEq

def millisPerDay : Int := 86400000

/-- The years that dates are given for. -/
def isRepresentable (year : Int) : Bool :=
  -262143 ≤ year && year ≤ 262142

def momentOfMillis? (millis : Int) : Option Moment :=
  let date := dateOfDays (millis.fdiv millisPerDay)
  if isRepresentable date.year then some ⟨date, (millis.fmod millisPerDay).toNat⟩ else none

/-! ## RFC 3339 -/

/-- The digits of `n`, with zeros in front up to `width`. -/
def padded (width n : Nat) : List Char :=
  let ds := Decimal.natChars n
  List.replicate (width - ds.length) '0' ++ ds

/-- Four digits, and a sign where that is not enough. -/
def yearChars (year : Int) : List Char :=
  if 0 ≤ year ∧ year ≤ 9999 then padded 4 year.toNat
  else (if year < 0 then '-' else '+') :: padded 4 year.natAbs

/-- The fraction of a second is written only if it is not zero. -/
def rfc3339 (m : Moment) : String :=
  let second := m.millis / 1000
  let fraction := m.millis % 1000
  String.ofList
    (yearChars m.date.year ++ ['-'] ++ padded 2 m.date.month ++ ['-'] ++ padded 2 m.date.day
      ++ ['T'] ++ padded 2 (second / 3600) ++ [':'] ++ padded 2 (second / 60 % 60)
      ++ [':'] ++ padded 2 (second % 60)
      ++ (if fraction = 0 then [] else '.' :: padded 3 fraction)
      ++ ['+', '0', '0', ':', '0', '0'])

end EventSeal.Calendar
