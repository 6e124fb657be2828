/-
  BimEditor.Calendar.Date

  Dates of the proleptic Gregorian calendar and times of day, as far as a document can spell them.
-/

namespace BimEditor.Calendar

/-- A year, a month and a day, which need not exist. -/
structure Date where
  year : Int
  month : Nat
  day : Nat
deriving DecidableEq, Repr, Inhabited

/-- An hour, a minute and a second, which need not exist. -/
structure Time where
  hour : Nat
  minute : Nat
  second : Nat
deriving DecidableEq, Repr, Inhabited

/-- The year has a 29 February. -/
def isLeapYear (year : Int) : Bool :=
  year % 4 = 0 && (year % 100 ≠ 0 || year % 400 = 0)

/-- Number of days of a month; none for a month that does not exist. -/
def daysInMonth (year : Int) (month : Nat) : Nat :=
  if month = 2 then (if isLeapYear year then 29 else 28)
  else if month = 4 ∨ month = 6 ∨ month = 9 ∨ month = 11 then 30
  else if 1 ≤ month ∧ month ≤ 12 then 31
  else 0

/-- The first date of the calendar. -/
def firstDate : Date := ⟨-262143, 1, 1⟩

/-- The last date of the calendar. -/
def lastDate : Date := ⟨262142, 12, 31⟩

/-- The years that a date may lie in. -/
def isCalendarYear (year : Int) : Bool :=
  firstDate.year ≤ year && year ≤ lastDate.year

/-- The date exists. -/
def Date.isValid (d : Date) : Bool :=
  isCalendarYear d.year && 1 ≤ d.day && d.day ≤ daysInMonth d.year d.month

/-- The time exists. Every minute may have a leap second. -/
def Time.isValid (t : Time) : Bool :=
  t.hour ≤ 23 && t.minute ≤ 59 && t.second ≤ 60

/-- The moment `minutes` after midnight of `d`, less than a day before or behind that day, lies on a
    date of the calendar. -/
def Date.reaches (d : Date) (minutes : Int) : Bool :=
  if minutes < 0 then d != firstDate
  else if 24 * 60 ≤ minutes then d != lastDate
  else true

/-- Number of days from 1 January of the year zero to 1 January of `year`. -/
def daysBeforeYear (year : Int) : Int :=
  365 * year + (year + 3) / 4 - (year + 99) / 100 + (year + 399) / 400

/-- Number of days in the months before `month`. -/
def daysBeforeMonth (year : Int) : Nat → Nat
  | 0 => 0
  | month + 1 => daysBeforeMonth year month + daysInMonth year month

/-- The day of the week, counted from zero for Monday. 1 January of the year zero was a Saturday. -/
def Date.weekday (d : Date) : Nat :=
  ((daysBeforeYear d.year + daysBeforeMonth d.year d.month + d.day + 4) % 7).toNat

end BimEditor.Calendar
