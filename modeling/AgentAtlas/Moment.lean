import AgentAtlas.Decimal.Layout

/-!
# Moments as text

A moment is a number of seconds since the start of 1970, told in universal time in the form that
mail headers use: `Thu, 1 Jan 1970 00:00:00 +0000`.

Days are counted from the first of March of the year zero, so that a leap day is the last day of its
year. Then 400 years have `146097` days, 4 years have `1461` but for the last of a century, and five
months from March or from August have `153`.
-/

set_option autoImplicit false

namespace AgentAtlas.Moment

/-- A day of the calendar. -/
structure Date where
  year : Nat
  /-- From 1 for January to 12. -/
  month : Nat
  /-- From 1. -/
  day : Nat
  deriving DecidableEq, Repr

/-- The days from the first of March of the year zero to the start of 1970. -/
def daysBefore1970 : Nat := 719468

/-- The year, from March, and the day in it, of a day in a period of 400 years. -/
def yearInPeriod (day : Nat) : Nat × Nat :=
  -- Without the leap days before it, a day falls into its year by plain division.
  let year := (day - day / 1460 + day / 36524 - day / 146096) / 365
  (year, day - (365 * year + year / 4 - year / 100))

/-- The month, from March, and the day in it, of a day in a year. -/
def monthInYear (day : Nat) : Nat × Nat :=
  let month := (5 * day + 2) / 153
  (month, day - (153 * month + 2) / 5)

/-- The date of a day since the start of 1970. -/
def dateOf (day : Nat) : Date :=
  let count := day + daysBefore1970
  let (year, rest) := yearInPeriod (count % 146097)
  let (month, rest) := monthInYear rest
  let january := if month < 10 then 0 else 1
  ⟨400 * (count / 146097) + year + january, if month < 10 then month + 3 else month - 9, rest + 1⟩

def monthNames : List String :=
  ["Jan", "Feb", "Mar", "Apr", "May", "Jun", "Jul", "Aug", "Sep", "Oct", "Nov", "Dec"]

/-- The names of the days in the order in which they follow the first day of 1970. -/
def dayNames : List String := ["Thu", "Fri", "Sat", "Sun", "Mon", "Tue", "Wed"]

/-- A natural below a hundred in two digits. -/
def twoDigits (n : Nat) : String := (if n < 10 then "0" else "") ++ Decimal.natText n

/-- The text of a moment. -/
def text (seconds : Nat) : String :=
  let day := seconds / 86400
  let date := dateOf day
  let clock := [seconds / 3600 % 24, seconds / 60 % 60, seconds % 60]
  dayNames.getD (day % 7) "" ++ ", " ++ Decimal.natText date.day ++ " " ++
    monthNames.getD (date.month - 1) "" ++ " " ++ Decimal.natText date.year ++ " " ++
    String.intercalate ":" (clock.map twoDigits) ++ " +0000"

end AgentAtlas.Moment
