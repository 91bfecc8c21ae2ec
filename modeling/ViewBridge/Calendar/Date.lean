/-!
# Civil dates

Days are counted from the first of January of the year one in the proleptic Gregorian calendar, before and
after. A day count and a date (year, month, day) determine each other; the year of a count is guessed from
the mean length of a year and corrected by at most one.

Results:
* `total_monthLengths`: the lengths of the months add up to the length of the year.
* `daysBefore_succ`: a year begins as many days after the one before as that one is long.
-/
namespace ViewBridge.Calendar

/-- Whether a year has a leap day. -/
def isLeap (year : Int) : Bool := year % 4 = 0 && (year % 100 ≠ 0 || year % 400 = 0)

/-- The lengths of the months of a year. -/
def monthLengths (leap : Bool) : List Nat :=
  [31, if leap then 29 else 28, 31, 30, 31, 30, 31, 31, 30, 31, 30, 31]

/-- The days of several months. -/
def total : List Nat → Nat
  | [] => 0
  | n :: ns => n + total ns

theorem total_monthLengths (leap : Bool) : total (monthLengths leap) = if leap then 366 else 365 := by
  cases leap <;> rfl

/-- The number of days of a month. -/
def daysInMonth (year : Int) (month : Nat) : Nat := (monthLengths (isLeap year)).getD (month - 1) 0

/-- The days before the first of January of a year. -/
def daysBefore (year : Int) : Int :=
  let y := year - 1
  365 * y + y / 4 - y / 100 + y / 400

theorem daysBefore_succ (year : Int) :
    daysBefore (year + 1) = daysBefore year + if isLeap year then 366 else 365 := by
  simp only [daysBefore, isLeap, Bool.and_eq_true, Bool.or_eq_true, decide_eq_true_eq, ne_eq,
    decide_not, Bool.not_eq_true', decide_eq_false_iff_not]
  split <;> omega

/-- A date. -/
structure Date where
  year : Int
  month : Nat
  day : Nat
deriving DecidableEq, Repr

/-- The days of a year before a month. -/
def daysBeforeMonth (leap : Bool) (month : Nat) : Nat := total ((monthLengths leap).take (month - 1))

namespace Date

/-- Whether there is such a day, in the years the calendar covers. -/
def isValid (d : Date) : Bool :=
  -262143 ≤ d.year && d.year ≤ 262142 && 1 ≤ d.month && d.month ≤ 12 && 1 ≤ d.day &&
    d.day ≤ daysInMonth d.year d.month

/-- The day of the year, counted from zero. -/
def ordinal (d : Date) : Nat := daysBeforeMonth (isLeap d.year) d.month + (d.day - 1)

/-- The day count of a date. -/
def toDays (d : Date) : Int := daysBefore d.year + d.ordinal

end Date

/-- The year that a day lies in. -/
def yearOf (days : Int) : Int :=
  let y := 400 * days / 146097 + 1
  if daysBefore (y + 1) ≤ days then y + 1 else if days < daysBefore y then y - 1 else y

/-- The month and the day in it of a day of the year, both counted from one. -/
def splitOrdinal : (lengths : List Nat) → (month : Nat) → (ordinal : Nat) → Nat × Nat
  | [], month, o => (month, o + 1)
  | l :: ls, month, o => if o < l then (month, o + 1) else splitOrdinal ls (month + 1) (o - l)

/-- The date of a day count. -/
def Date.ofDays (days : Int) : Date :=
  let year := yearOf days
  let (month, day) := splitOrdinal (monthLengths (isLeap year)) 1 (days - daysBefore year).toNat
  ⟨year, month, day⟩

/-- The day of the week of a day count, Monday being zero. -/
def weekday (days : Int) : Nat := (days % 7).toNat

/-- The number of the week of a day count: the week belongs to the year of its Thursday. -/
def weekNumber (days : Int) : Nat :=
  let thursday := days - days % 7 + 3
  ((thursday - daysBefore (yearOf thursday)) / 7).toNat + 1

end ViewBridge.Calendar
