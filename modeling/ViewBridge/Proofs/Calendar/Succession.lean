import ViewBridge.Calendar.Format
import ViewBridge.Proofs.Calendar.Date
/-!
# The day after

A day is followed by the next one of its month, else by the first of the next month, else by the first of January. So
the length of a month is the day of it that the first of a month follows, and the length of a year shows in its last
day. A format that tells both lengths by rules of its own agrees with the succession of days.

Results:
* `Date.ofDays_succ`: the date of the day after.
* `Date.ordinal_ofDays`: the day of the year, from the day counts.
* `isLastOfYear_iff`: the last day of a year is the one before the next year begins.
* `format_lengths`: the lengths of months and years that a format tells.
-/
namespace ViewBridge.Calendar

/-! ## Lengths -/

theorem total_take_succ {lengths : List Nat} {i : Nat} (hi : i < lengths.length) :
    total (lengths.take (i + 1)) = total (lengths.take i) + lengths.getD i 0 := by
  induction lengths generalizing i with
  | nil => exact absurd hi (Nat.not_lt_zero i)
  | cons l ls ih =>
    cases i with
    | zero => simp [total]
    | succ i =>
      have hrest := ih (Nat.lt_of_succ_lt_succ hi)
      rw [List.take_succ_cons, List.take_succ_cons, total, total, List.getD_cons_succ]
      omega

/-- A year has a day more if it is a leap year. -/
theorem daysBefore_succ_eq (year : Int) : daysBefore (year + 1) = daysBefore year + (365 + (isLeap year).toNat : Nat) := by
  rw [daysBefore_succ]
  cases isLeap year <;> rfl

/-- Every month has a first day. -/
theorem daysInMonth_pos {month : Nat} (hpos : 1 ≤ month) (hle : month ≤ 12) (year : Int) :
    1 ≤ daysInMonth year month := by
  have hmonths : ∀ leap, ∀ i < 12, 1 ≤ (monthLengths leap).getD i 0 := by decide
  exact hmonths _ _ (by omega)

namespace Date

variable {d : Date}

/-! ## The next date -/

/-- The date of the day after. -/
def next (d : Date) : Date :=
  if d.day < daysInMonth d.year d.month then { d with day := d.day + 1 }
  else if d.month < 12 then ⟨d.year, d.month + 1, 1⟩
  else ⟨d.year + 1, 1, 1⟩

namespace IsDay

variable (h : d.IsDay)
include h

theorem next : d.next.IsDay := by
  obtain ⟨hmonth, hmonth', hday, hday'⟩ := h
  unfold Date.next
  split
  · exact ⟨hmonth, hmonth', Nat.succ_pos _, by assumption⟩
  split
  · exact ⟨Nat.succ_pos _, by assumption, Nat.le_refl 1, daysInMonth_pos (Nat.succ_pos _) (by assumption) _⟩
  · exact ⟨Nat.le_refl 1, Nat.succ_pos 11, Nat.le_refl 1, daysInMonth_pos (Nat.le_refl 1) (Nat.succ_pos 11) _⟩

/-- The last day of a month is followed by as many days before the next month as there are up to that day. -/
theorem ordinal_of_last (hlast : d.day = daysInMonth d.year d.month) :
    d.ordinal + 1 = daysBeforeMonth (isLeap d.year) (d.month + 1) := by
  have hday := h.day_pos
  have hmonth := h.month_pos
  have htake := total_take_succ h.place.1
  rw [ordinal, daysBeforeMonth, daysBeforeMonth, Nat.add_sub_cancel, ← Nat.sub_add_cancel hmonth, htake,
    Nat.add_sub_cancel]
  rw [daysInMonth] at hlast
  omega

/-- The next date is one day later. -/
theorem toDays_next : d.next.toDays = d.toDays + 1 := by
  have hday := h.day_pos
  unfold Date.next
  split
  · simp only [toDays, ordinal]
    omega
  rename_i hlast
  have hordinal := h.ordinal_of_last (Nat.le_antisymm h.day_le (Nat.le_of_not_lt hlast))
  split
  · rw [toDays, toDays, ordinal]
    simp only [Nat.sub_self, Nat.add_zero, ← hordinal]
    omega
  · -- the month is December, and the days before the month behind it are those of the whole year
    rename_i hmonth
    have hdecember : d.month = 12 := Nat.le_antisymm h.month_le (Nat.le_of_not_lt hmonth)
    have hyear : daysBeforeMonth (isLeap d.year) 13 = total (monthLengths (isLeap d.year)) := rfl
    have hfirst : (⟨d.year + 1, 1, 1⟩ : Date).ordinal = 0 := rfl
    rw [hdecember, hyear] at hordinal
    rw [toDays, toDays, hfirst, daysBefore_succ_eq_total, ← hordinal]
    omega

/-- A month begins behind its last day. -/
theorem day_next_eq_one_iff : d.next.day = 1 ↔ daysInMonth d.year d.month = d.day := by
  have hday := h.day_pos
  have hday' := h.day_le
  unfold Date.next
  split
  · exact iff_of_false (by simp only; omega) (by omega)
  · split <;> exact iff_of_true rfl (by omega)

/-- The days of a year are counted from zero. -/
theorem ordinal_lt : d.ordinal < 365 + (isLeap d.year).toNat := by
  have hlt := h.toDays_lt
  rw [daysBefore_succ_eq, toDays] at hlt
  omega

end IsDay

/-- The date of the day after. -/
theorem ofDays_succ (days : Int) : ofDays (days + 1) = (ofDays days).next := by
  have h := isDay_ofDays days
  rw [← h.next.ofDays_toDays, h.toDays_next, toDays_ofDays]

/-- The day of the year. -/
theorem ordinal_ofDays (days : Int) : ((ofDays days).ordinal : Int) = days - daysBefore (ofDays days).year := by
  have hback := toDays_ofDays days
  rw [toDays] at hback
  omega

end Date

end ViewBridge.Calendar

namespace ViewBridge.Instant

open Calendar

/-! ## The rules of a format -/

theorem hasLeapDay_eq (year : Int) : hasLeapDay year = isLeap year := by
  -- a remainder is zero under either division if the divisor divides the year
  have hzero (k : Int) : year.tmod k = 0 ↔ year % k = 0 := by
    rw [← Int.dvd_iff_tmod_eq_zero, Int.dvd_iff_emod_eq_zero]
  simp only [hasLeapDay, isLeap, hzero, ne_eq]

theorem monthLength_eq {month : Nat} (hpos : 1 ≤ month) (hle : month ≤ 12) (year : Int) :
    monthLength year month = daysInMonth year month := by
  rw [monthLength, daysInMonth, hasLeapDay_eq]
  generalize isLeap year = leap
  have htable : ∀ leap, ∀ i < 12, (if i + 1 ∈ [4, 6, 9, 11] then 30 else
      if i + 1 = 2 then if leap then 29 else 28 else 31) = (monthLengths leap).getD i 0 := by decide
  have hmonth := htable leap (month - 1) (by omega)
  rwa [Nat.sub_add_cancel hpos] at hmonth

/-! ## Days and years of instants -/

/-- The same time of the next day. -/
def nextDay (t : Instant) : Instant := { t with secs := t.secs + 86400 }

theorem date_nextDay (t : Instant) : t.nextDay.date = t.date.next := by
  have hdays : t.nextDay.days = t.days + 1 := by
    simp only [days, nextDay]
    omega
  rw [date, hdays, Date.ofDays_succ, date]

/-- Whether an instant lies on the last day of a year: no day of the year is later. -/
def IsLastOfYear (u : Instant) (year : Int) : Prop :=
  u.date.year = year ∧ ∀ v : Instant, v.date.year = year → v.days ≤ u.days

/-- The midnight with which a day begins. -/
def ofDay (days : Int) : Instant := ⟨(days - epochDay) * 86400, 0⟩

theorem days_ofDay (days : Int) : (ofDay days).days = days := by
  simp only [Instant.days, ofDay]
  omega

/-- A year holds the days from its first to the one before the next year. -/
theorem year_eq_iff {t : Instant} {year : Int} :
    t.date.year = year ↔ daysBefore year ≤ t.days ∧ t.days < daysBefore (year + 1) := by
  constructor
  · rintro rfl
    exact daysBefore_yearOf t.days
  · rintro ⟨hle, hlt⟩
    exact yearOf_eq hle hlt

theorem isLastOfYear_iff {u : Instant} {year : Int} : u.IsLastOfYear year ↔ u.days = daysBefore (year + 1) - 1 := by
  have hlength := daysBefore_succ_eq year
  constructor
  · rintro ⟨hyear, hlast⟩
    have hu := year_eq_iff.1 hyear
    have hle := hlast (ofDay (daysBefore (year + 1) - 1)) (year_eq_iff.2 (by rw [days_ofDay]; omega))
    rw [days_ofDay] at hle
    omega
  · intro hu
    refine ⟨year_eq_iff.2 (by omega), fun v hv => ?_⟩
    have hv := year_eq_iff.1 hv
    omega

/-- On the last day of a year all other days of the year have passed. -/
theorem IsLastOfYear.ordinal_eq {u : Instant} {year : Int} (h : u.IsLastOfYear year) :
    u.date.ordinal = 364 + (isLeap year).toNat := by
  have hordinal : (u.date.ordinal : Int) = u.days - daysBefore u.date.year := Date.ordinal_ofDays u.days
  have hlast := isLastOfYear_iff.1 h
  rw [h.1] at hordinal
  rw [daysBefore_succ_eq] at hlast
  omega

/-- A format tells the length of the month, a number that is never smaller than the day and equals it exactly if the
next day is the first of a month; whether the year has a leap day, which is so exactly if the last day of the year has
the number 365; and the number of the day in its year, counted from zero. -/
theorem format_lengths (t : Instant) :
    ∃ length leap ordinal : Nat,
      t.format "t".toList = Text.ofNat length ∧ t.format "L".toList = Text.ofNat leap ∧
      t.format "z".toList = Text.ofNat ordinal ∧
      (length = t.date.day ↔ t.nextDay.date.day = 1) ∧ t.date.day ≤ length ∧
      (∃ u : Instant, u.IsLastOfYear t.date.year) ∧
      (∀ u : Instant, u.IsLastOfYear t.date.year → (leap = 1 ↔ u.format "z".toList = Text.ofNat 365)) ∧
      leap ≤ 1 ∧ ordinal < 365 + leap := by
  have h : t.date.IsDay := Date.isDay_ofDays t.days
  have hlength := monthLength_eq h.month_pos h.month_le t.date.year
  have hleap := hasLeapDay_eq t.date.year
  refine ⟨monthLength t.date.year t.date.month, (hasLeapDay t.date.year).toNat, t.date.ordinal,
    List.append_nil _, List.append_nil _, List.append_nil _, ?_, hlength ▸ h.day_le,
    ⟨ofDay (daysBefore (t.date.year + 1) - 1), isLastOfYear_iff.2 (days_ofDay _)⟩, fun u hu => ?_,
    Bool.toNat_le _, hleap ▸ h.ordinal_lt⟩
  · rw [date_nextDay, h.day_next_eq_one_iff, hlength]
  · have hz : u.format "z".toList = Text.ofNat u.date.ordinal := List.append_nil _
    rw [hz, hu.ordinal_eq, hleap]
    constructor
    · intro hone
      rw [hone]
    · intro htext
      have hnumber := Text.ofNat_inj htext
      omega

-- The leap day of the year -4, whose remainders are not positive.
example : (⟨-62288352000, 0⟩ : Instant).format "Y-n-j: t L z".toList = "-4-2-29: 29 1 59".toList := by
  decide +kernel

end ViewBridge.Instant
