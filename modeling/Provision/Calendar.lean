import Provision.Text.Column

/-!
# Calendar

Points in time are seconds since the first of January 1970, UTC. They are written in the Gregorian
calendar, which repeats every 400 years; years are counted here from the first of March, so that
leap days come last.
-/

namespace Provision.Calendar

structure Date where
  year : Int
  month : Nat
  day : Nat
  deriving DecidableEq, Repr

/-- The days of 400 years. -/
def daysOfEra : Int := 146097

/-- The days from the first of March of the year 0 to the first of January 1970. -/
def epochDay : Int := 719468

/-- The date of a day, counted from the first of January 1970. -/
def dateOfDay (day : Int) : Date :=
  let day := day + epochDay
  let era := Int.fdiv day daysOfEra
  let inEra := (day - era * daysOfEra).toNat
  let yearOfEra := (inEra - inEra / 1460 + inEra / 36524 - inEra / 146096) / 365
  let inYear := inEra - (365 * yearOfEra + yearOfEra / 4 - yearOfEra / 100)
  let month := (5 * inYear + 2) / 153
  let year := era * 400 + yearOfEra
  { year := if month < 10 then year else year + 1
    month := if month < 10 then month + 3 else month - 9
    day := inYear - (153 * month + 2) / 5 + 1 }

def secondsOfDay : Int := 86400

/-- At least `width` digits. -/
def digits (width n : Nat) : String :=
  let text := toString n
  String.ofList (List.replicate (width - text.length) '0') ++ text

/-- Four digits; years that need more, or are negative, carry their sign. -/
def yearText (year : Int) : String :=
  if year < 0 then "-" ++ digits 4 year.natAbs
  else if 9999 < year then "+" ++ digits 4 year.natAbs
  else digits 4 year.natAbs

def dateText (seconds : Int) : String :=
  let date := dateOfDay (Int.fdiv seconds secondsOfDay)
  yearText date.year ++ "-" ++ digits 2 date.month ++ "-" ++ digits 2 date.day

/-- Hours and minutes. -/
def clockText (seconds : Int) : String :=
  let inDay := (Int.fmod seconds secondsOfDay).toNat
  digits 2 (inDay / 3600) ++ ":" ++ digits 2 (inDay / 60 % 60)

/-- Date and time to the second, with the mark of UTC. -/
def stamp (seconds : Int) : String :=
  let inDay := (Int.fmod seconds secondsOfDay).toNat
  dateText seconds ++ "T" ++ clockText seconds ++ ":" ++ digits 2 (inDay % 60) ++ "Z"

/-- The years that a date may fall in. -/
def firstYear : Int := -262143
def lastYear : Int := 262142

/-- Date and time to the minute, or the bare number if it is no date. -/
def minuteText (seconds : Int) : String :=
  let year := (dateOfDay (Int.fdiv seconds secondsOfDay)).year
  if firstYear ≤ year ∧ year ≤ lastYear then dateText seconds ++ " " ++ clockText seconds
  else toString seconds

end Provision.Calendar
