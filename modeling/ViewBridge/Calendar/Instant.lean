import ViewBridge.Calendar.Date
import ViewBridge.Number.Reading
/-!
# Instants

An instant is a count of seconds and nanoseconds in universal time. A leap second is the second before it
with a nanosecond count of a thousand million or more. Instants are read from whole seconds, from the
internet date format, and from a list of layouts of which the first that fits decides.
-/
namespace ViewBridge

/-- A point in universal time: seconds since the start of 1970. -/
structure Instant where
  secs : Int
  nanos : Nat := 0
deriving DecidableEq, Repr

namespace Instant

/-- The day count of the first of January 1970. -/
def epochDay : Int := 719162

/-- The day count of an instant. -/
def days (t : Instant) : Int := t.secs / 86400 + epochDay

/-- The second of the day. -/
def secondOfDay (t : Instant) : Nat := (t.secs % 86400).toNat

/-- The date of an instant. -/
def date (t : Instant) : Calendar.Date := Calendar.Date.ofDays t.days

/-- The instant of a count of seconds, in the years the calendar covers. -/
def ofSeconds? (secs : Int) : Option Instant :=
  let t : Instant := ⟨secs, 0⟩
  if t.date.isValid then some t else none

/-- What has been read of a date and a time of day. -/
structure Fields where
  date : Calendar.Date
  hour : Nat := 0
  minute : Nat := 0
  second : Nat := 0
  nanos : Nat := 0

/-- The instant of a valid date and time, as universal time. -/
def Fields.instant? (f : Fields) : Option Instant :=
  if f.date.isValid ∧ f.hour ≤ 23 ∧ f.minute ≤ 59 ∧ f.second ≤ 60 then
    let time := f.hour * 3600 + f.minute * 60 + min f.second 59
    some ⟨(f.date.toDays - epochDay) * 86400 + time,
      f.nanos + if f.second = 60 then 1000000000 else 0⟩
  else none

/-! ## The internet date format -/

/-- Exactly `n` digits. -/
def readDigits (n : Nat) (s : Chars) : Option (Nat × Chars) :=
  let ds := s.take n
  if ds.length = n ∧ ds.all Text.isDigit then some (digitsValue ds, s.drop n) else none

/-- The decimals of a second, as nanoseconds; digits past the ninth are dropped. -/
def readFraction (s : Chars) : Option (Nat × Chars) :=
  match s with
  | '.' :: rest =>
    let ds := rest.takeWhile Text.isDigit
    if ds = [] then none
    else some (digitsValue (ds.take 9) * Nat.pow 10 (9 - ds.length), rest.dropWhile Text.isDigit)
  | _ => some (0, s)

/-- The offset from universal time, in seconds, at the end of a text. -/
def readOffset (s : Chars) : Option Int :=
  let sign : Option (Int × Chars) := match s with
    | '+' :: rest => some (1, rest)
    | c :: rest => if c = '-' ∨ c = Char.ofNat 0x2212 then some (-1, rest) else none
    | [] => none
  if s = ['Z'] ∨ s = ['z'] then some 0
  else do
    let (sign, s) ← sign
    let (hours, s) ← readDigits 2 s
    let s ← Text.after? [':'] s
    let (minutes, s) ← readDigits 2 s
    if s = [] ∧ hours ≤ 23 ∧ minutes ≤ 59 then some (sign * (hours * 3600 + minutes * 60)) else none

/-- The instant that a text in the internet date format is. -/
def readInternet? (s : Chars) : Option Instant := do
  let (year, s) ← readDigits 4 s
  let s ← Text.after? ['-'] s
  let (month, s) ← readDigits 2 s
  let s ← Text.after? ['-'] s
  let (day, s) ← readDigits 2 s
  let s ← match s with
    | c :: rest => if c = 'T' ∨ c = 't' ∨ c = ' ' then some rest else none
    | [] => none
  let (hour, s) ← readDigits 2 s
  let s ← Text.after? [':'] s
  let (minute, s) ← readDigits 2 s
  let s ← Text.after? [':'] s
  let (second, s) ← readDigits 2 s
  let (nanos, s) ← readFraction s
  let offset ← readOffset s
  let local_ ← (Fields.mk ⟨year, month, day⟩ hour minute second nanos).instant?
  pure { local_ with secs := local_.secs - offset }

/-! ## Layouts -/

/-- A piece of a layout: a field, a fixed character, or blanks. -/
inductive Item where
  | year
  | month
  | day
  | hour
  | minute
  | second
  | literal (c : Char)
  | space
deriving DecidableEq, Repr

/-- At least one and at most `n` digits, of a number that fits 64 bits. -/
def readNumber (n : Nat) (s : Chars) : Option (Nat × Chars) :=
  let ds := (s.take n).takeWhile Text.isDigit
  if ds = [] ∨ int64Max < (digitsValue ds : Int) then none else some (digitsValue ds, s.drop ds.length)

/-- A year: a sign and any number of digits, or up to four digits. -/
def readYear (s : Chars) : Option (Int × Chars) :=
  match s with
  | '-' :: rest => (readNumber rest.length rest).map fun (n, r) => (-(n : Int), r)
  | '+' :: rest => (readNumber rest.length rest).map fun (n, r) => ((n : Int), r)
  | _ => (readNumber 4 s).map fun (n, r) => ((n : Int), r)

/-- Read one item; blanks may precede a field. -/
def Item.read (item : Item) (f : Fields) (s : Chars) : Option (Fields × Chars) :=
  let t := s.dropWhile Text.isBlank
  match item with
  | .year => (readYear t).map fun (n, r) => ({ f with date := { f.date with year := n } }, r)
  | .month => (readNumber 2 t).map fun (n, r) => ({ f with date := { f.date with month := n } }, r)
  | .day => (readNumber 2 t).map fun (n, r) => ({ f with date := { f.date with day := n } }, r)
  | .hour => (readNumber 2 t).map fun (n, r) => ({ f with hour := n }, r)
  | .minute => (readNumber 2 t).map fun (n, r) => ({ f with minute := n }, r)
  | .second => (readNumber 2 t).map fun (n, r) => ({ f with second := n }, r)
  | .literal c => (Text.after? [c] s).map fun r => (f, r)
  | .space => some (f, t)

/-- Read a layout through to the end of the text. -/
def readItems : List Item → Fields → Chars → Option Fields
  | [], f, s => if s = [] then some f else none
  | item :: items, f, s => (item.read f s).bind fun (f, s) => readItems items f s

/-- The layouts of dates: year first, and day first with either separator. -/
def yearFirst : List Item := [.year, .literal '-', .month, .literal '-', .day]

/-- Day, month and year between separators. -/
def dayFirst (c : Char) : List Item := [.day, .literal c, .month, .literal c, .year]

/-- Hours and minutes after a space. -/
def minutes : List Item := [.space, .hour, .literal ':', .minute]

/-- Hours, minutes and seconds after a space. -/
def seconds : List Item := minutes ++ [.literal ':', .second]

/-- The layouts in the order they are tried. -/
def layouts : List (List Item) :=
  [yearFirst ++ seconds, yearFirst ++ minutes, dayFirst '-' ++ seconds, dayFirst '-' ++ minutes,
    dayFirst '/' ++ seconds, yearFirst, dayFirst '-', dayFirst '/']

/-- The instant that a text in a layout is. -/
def readLayout? (layout : List Item) (s : Chars) : Option Instant :=
  (readItems layout { date := ⟨0, 0, 0⟩ } s).bind Fields.instant?

/-- The instant that a text stands for: whole seconds, the internet date format, or a layout. Whole seconds
beyond the calendar are no instant. -/
def read? (s : Chars) : Option Instant :=
  let s := Text.trimWhile Text.isBlank s
  match readInt64? s with
  | some secs => ofSeconds? secs
  | none => (readInternet? s).or (layouts.findSome? fun layout => readLayout? layout s)

end Instant
end ViewBridge
