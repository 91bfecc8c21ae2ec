import ViewBridge.Calendar.Instant
/-!
# Writing dates

A format is a text of letters that stand for parts of a date in universal time. A backslash makes the next
character stand for itself, as does every letter without a meaning.

Results:
* `format_append_escaped`: an escaped character is copied.
-/
namespace ViewBridge.Instant

/-- The English names of the days of the week, from Monday. -/
def weekdayNames : List String :=
  ["Monday", "Tuesday", "Wednesday", "Thursday", "Friday", "Saturday", "Sunday"]

/-- The English names of the months. -/
def monthNames : List String :=
  ["January", "February", "March", "April", "May", "June", "July", "August", "September", "October",
    "November", "December"]

/-- The ending of a day's ordinal number. -/
def ordinalEnding (day : Nat) : Chars :=
  if day = 1 ∨ day = 21 ∨ day = 31 then "st".toList
  else if day = 2 ∨ day = 22 then "nd".toList
  else if day = 3 ∨ day = 23 then "rd".toList
  else "th".toList

/-- A number filled up with zeros. -/
def padded (width n : Nat) : Chars := Text.padLeft '0' width (Text.ofNat n)

/-- A year of at least four digits; outside the four-digit years it has a sign. -/
def longYear (year : Int) : Chars :=
  if 0 ≤ year ∧ year ≤ 9999 then padded 4 year.toNat
  else (if year < 0 then '-' else '+') :: padded 4 year.natAbs

/-- The last two digits of a year; a negative year keeps its sign. -/
def shortYear (year : Int) : Chars :=
  let y := year.tmod 100
  if y < 0 then Text.ofInt y else padded 2 y.toNat

/-- The name of the weekday. -/
def weekdayName (t : Instant) : Chars := (weekdayNames.getD (Calendar.weekday t.days) "").toList

/-- The name of the month. -/
def monthName (t : Instant) : Chars := (monthNames.getD (t.date.month - 1) "").toList

/-- The hour of the day. -/
def hour (t : Instant) : Nat := t.secondOfDay / 3600

/-- The hour on a clock face. -/
def clockHour (t : Instant) : Nat := if t.hour % 12 = 0 then 12 else t.hour % 12

/-- The minute of the hour. -/
def minute (t : Instant) : Nat := t.secondOfDay / 60 % 60

/-- The second of the minute. -/
def second (t : Instant) : Nat := t.secondOfDay % 60

/-- The time of day with colons; a leap second is the sixtieth. -/
def clock (t : Instant) : Chars :=
  padded 2 t.hour ++ ':' :: padded 2 t.minute ++ ':' :: padded 2 (t.second + t.nanos / 1000000000)

/-- Whether a year has a leap day, by the remainders of a division that cuts towards zero: those of a negative
year are not positive. -/
def hasLeapDay (year : Int) : Bool :=
  year.tmod 4 = 0 && (year.tmod 100 ≠ 0 || year.tmod 400 = 0)

/-- The number of days of a month: thirty in four of them, fewer in the second, and otherwise one more. -/
def monthLength (year : Int) (month : Nat) : Nat :=
  if month ∈ [4, 6, 9, 11] then 30
  else if month = 2 then if hasLeapDay year then 29 else 28
  else 31

/-- What a letter of a format stands for. -/
def letter? (t : Instant) (c : Char) : Option Chars :=
  let d := t.date
  match c with
  | 'd' => some (padded 2 d.day)
  | 'j' => some (Text.ofNat d.day)
  | 'D' => some (t.weekdayName.take 3)
  | 'l' => some t.weekdayName
  | 'N' => some (Text.ofNat (Calendar.weekday t.days + 1))
  | 'w' => some (Text.ofNat ((Calendar.weekday t.days + 1) % 7))
  | 'z' => some (Text.ofNat d.ordinal)
  | 'S' => some (ordinalEnding d.day)
  | 'W' => some (padded 2 (Calendar.weekNumber t.days))
  | 'F' => some t.monthName
  | 'M' => some (t.monthName.take 3)
  | 'm' => some (padded 2 d.month)
  | 'n' => some (Text.ofNat d.month)
  | 't' => some (Text.ofNat (monthLength d.year d.month))
  | 'L' => some (Text.ofNat (hasLeapDay d.year).toNat)
  | 'Y' => some (Text.ofInt d.year)
  | 'y' => some (shortYear d.year)
  | 'a' => some (if t.hour < 12 then "am".toList else "pm".toList)
  | 'A' => some (if t.hour < 12 then "AM".toList else "PM".toList)
  | 'g' => some (Text.ofNat t.clockHour)
  | 'G' => some (Text.ofNat t.hour)
  | 'h' => some (padded 2 t.clockHour)
  | 'H' => some (padded 2 t.hour)
  | 'i' => some (padded 2 t.minute)
  | 's' => some (padded 2 t.second)
  | 'v' => some (padded 3 (t.nanos / 1000000))
  | 'u' => some (padded 6 (t.nanos / 1000))
  | 'e' => some "UTC".toList
  | 'T' => some "UTC".toList
  | 'O' => some "+0000".toList
  | 'P' => some "+00:00".toList
  | 'Z' => some ['0']
  | 'c' => some (longYear d.year ++ '-' :: padded 2 d.month ++ '-' :: padded 2 d.day ++ 'T' ::
      t.clock ++ "+00:00".toList)
  | 'r' => some (t.weekdayName.take 3 ++ ',' :: ' ' :: padded 2 d.day ++ ' ' :: t.monthName.take 3 ++
      ' ' :: longYear d.year ++ ' ' :: t.clock ++ " +0000".toList)
  | 'U' => some (Text.ofInt t.secs)
  | _ => none

/-- An instant in a format. -/
def format (t : Instant) : Chars → Chars
  | [] => []
  | ['\\'] => []
  | '\\' :: c :: rest => c :: format t rest
  | c :: rest => (t.letter? c).getD [c] ++ format t rest

theorem format_append_escaped (t : Instant) (c : Char) (rest : Chars) :
    t.format ('\\' :: c :: rest) = c :: t.format rest := by
  rw [format]

end ViewBridge.Instant
