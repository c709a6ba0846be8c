/-!
# Dates of points in time

The date and time of a number of seconds since the start of 1970, in the time of Greenwich and
without leap seconds.
-/

namespace PythonLint

/-- The year has a day more than others. -/
def isLeapYear (year : Nat) : Bool :=
  year % 4 == 0 && (year % 100 != 0 || year % 400 == 0)

def daysOfYear (year : Nat) : Nat :=
  if isLeapYear year then 366 else 365

def daysOfMonths (year : Nat) : List Nat :=
  [31, if isLeapYear year then 29 else 28, 31, 30, 31, 30, 31, 31, 30, 31, 30, 31]

def daysOfCycle : Nat := 146097

theorem daysOfYear_pos (year : Nat) : 0 < daysOfYear year := by
  unfold daysOfYear
  split <;> omega

/-- The year of a day, counted from the start of a year, and the day within it. -/
def yearOfDay (year day : Nat) : Nat × Nat :=
  if daysOfYear year ≤ day then yearOfDay (year + 1) (day - daysOfYear year) else (year, day)
termination_by day
decreasing_by
  have := daysOfYear_pos year
  omega

/-- The month of a day within a year, and the day within the month, both from 1. -/
def monthOfDay (month day : Nat) : List Nat → Nat × Nat
  | [] => (month, day + 1)
  | days :: rest =>
    if day < days then (month, day + 1) else monthOfDay (month + 1) (day - days) rest

/-- The year, month and day of a number of days since the start of 1970. -/
def dateOfDay (day : Nat) : Nat × Nat × Nat :=
  let (year, rest) := yearOfDay (1970 + 400 * (day / daysOfCycle)) (day % daysOfCycle)
  let (month, date) := monthOfDay 1 rest (daysOfMonths year)
  (year, month, date)

/-- A point in time: the seconds since the start of 1970, and the date and time. -/
structure Timestamp where
  /-- The seconds since the start of 1970. -/
  seconds : Int
  text : String
deriving DecidableEq, Repr

def zeroPadded (width n : Nat) : String :=
  let digits := Nat.toDigits 10 n
  String.ofList (List.replicate (width - digits.length) '0' ++ digits)

/-- The date and time of a number of seconds since the start of 1970. -/
def Timestamp.ofSeconds (seconds : Nat) : Timestamp :=
  let (year, month, date) := dateOfDay (seconds / 86400)
  let clock := seconds % 86400
  { seconds := seconds
    text := zeroPadded 4 year ++ "-" ++ zeroPadded 2 month ++ "-" ++ zeroPadded 2 date ++ "T" ++
      zeroPadded 2 (clock / 3600) ++ ":" ++ zeroPadded 2 (clock / 60 % 60) ++ ":" ++
      zeroPadded 2 (clock % 60) ++ "Z" }

end PythonLint
