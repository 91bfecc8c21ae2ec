import ViewBridge.Calendar.Date
import Mathlib.Tactic.Common
/-!
# Day counts and dates

The year of a day is the one whose days enclose it, and no other year's days do. A day of the year lies in one month
only, so that a day count and a date determine each other.

Results:
* `daysBefore_yearOf`, `yearOf_eq`: the year of a day.
* `splitOrdinal_eq`: the month of a day of the year.
* `Date.IsDay.ofDays_toDays`, `Date.toDays_ofDays`: the two ways undo each other.
-/
namespace ViewBridge.Calendar

/-! ## Years -/

theorem daysBefore_mono {y z : Int} (h : y ≤ z) : daysBefore y ≤ daysBefore z := by
  simp only [daysBefore]
  omega

/-- A day lies in its year. -/
theorem daysBefore_yearOf (days : Int) : daysBefore (yearOf days) ≤ days ∧ days < daysBefore (yearOf days + 1) := by
  -- The guess is off by one at most: the days of the leap years differ from their mean by less than a year.
  simp only [yearOf]
  split
  · simp only [daysBefore] at *
    omega
  · split <;> simp only [daysBefore] at * <;> omega

/-- A day lies in no other year. -/
theorem yearOf_eq {year days : Int} (hle : daysBefore year ≤ days) (hlt : days < daysBefore (year + 1)) :
    yearOf days = year := by
  obtain ⟨hfrom, hto⟩ := daysBefore_yearOf days
  rcases Int.lt_trichotomy (yearOf days) year with hyear | hyear | hyear
  · have hmono := daysBefore_mono (show yearOf days + 1 ≤ year by omega)
    omega
  · exact hyear
  · have hmono := daysBefore_mono (show year + 1 ≤ yearOf days by omega)
    omega

/-! ## Months -/

section
variable {lengths : List Nat} {i j : Nat} (hi : i < lengths.length) (hj : j < lengths.getD i 0)
include hi hj

/-- The month and the day in it, from the days of the months before. -/
theorem splitOrdinal_eq (month : Nat) :
    splitOrdinal lengths month (total (lengths.take i) + j) = (month + i, j + 1) := by
  induction lengths generalizing i month with
  | nil => exact absurd hi (Nat.not_lt_zero i)
  | cons l ls ih =>
    cases i with
    | zero =>
      rw [List.getD_cons_zero] at hj
      rw [List.take_zero, total, Nat.zero_add, splitOrdinal, if_pos hj]
      rfl
    | succ i =>
      rw [List.getD_cons_succ] at hj
      have hrest := ih (Nat.lt_of_succ_lt_succ hi) hj (month + 1)
      rw [List.take_succ_cons, total, splitOrdinal, if_neg (by omega),
        show l + total (ls.take i) + j - l = total (ls.take i) + j by omega, hrest, Nat.add_right_comm, Nat.add_assoc]

/-- A day of a month is a day of the year. -/
theorem total_take_add_lt : total (lengths.take i) + j < total lengths := by
  induction lengths generalizing i with
  | nil => exact absurd hi (Nat.not_lt_zero i)
  | cons l ls ih =>
    cases i with
    | zero =>
      rw [List.getD_cons_zero] at hj
      rw [List.take_zero, total, total]
      omega
    | succ i =>
      have hrest := ih (Nat.lt_of_succ_lt_succ hi) hj
      rw [List.take_succ_cons, total, total]
      omega

end

/-- A day of the year is a day of a month. -/
theorem exists_split {lengths : List Nat} {o : Nat} (ho : o < total lengths) :
    ∃ i j, i < lengths.length ∧ j < lengths.getD i 0 ∧ o = total (lengths.take i) + j := by
  induction lengths generalizing o with
  | nil => exact absurd ho (Nat.not_lt_zero o)
  | cons l ls ih =>
    rw [total] at ho
    by_cases hl : o < l
    · exact ⟨0, o, Nat.succ_pos _, hl, by rw [List.take_zero, total, Nat.zero_add]⟩
    · obtain ⟨i, j, hi, hj, heq⟩ := ih (o := o - l) (by omega)
      exact ⟨i + 1, j, Nat.succ_lt_succ hi, hj, by rw [List.take_succ_cons, total]; omega⟩

/-- A year is as long as its months are together. -/
theorem daysBefore_succ_eq_total (year : Int) :
    daysBefore (year + 1) = daysBefore year + (total (monthLengths (isLeap year)) : Nat) := by
  rw [daysBefore_succ, total_monthLengths]
  split <;> rfl

/-! ## Dates -/

namespace Date

/-- The month is one of the year, and the day one of the month. -/
structure IsDay (d : Date) : Prop where
  month_pos : 1 ≤ d.month
  month_le : d.month ≤ 12
  day_pos : 1 ≤ d.day
  day_le : d.day ≤ daysInMonth d.year d.month

variable {d : Date}

theorem isValid_iff : d.isValid = true ↔ d.IsDay ∧ -262143 ≤ d.year ∧ d.year ≤ 262142 := by
  simp only [isValid, Bool.and_eq_true, decide_eq_true_eq]
  constructor
  · rintro ⟨⟨⟨⟨⟨hmin, hmax⟩, hmonth⟩, hmonth'⟩, hday⟩, hday'⟩
    exact ⟨⟨hmonth, hmonth', hday, hday'⟩, hmin, hmax⟩
  · rintro ⟨⟨hmonth, hmonth', hday, hday'⟩, hmin, hmax⟩
    exact ⟨⟨⟨⟨⟨hmin, hmax⟩, hmonth⟩, hmonth'⟩, hday⟩, hday'⟩

namespace IsDay

variable (h : d.IsDay)
include h

/-- The month and the day, counted from zero. -/
theorem place : d.month - 1 < (monthLengths (isLeap d.year)).length ∧
    d.day - 1 < (monthLengths (isLeap d.year)).getD (d.month - 1) 0 := by
  obtain ⟨hmonth, hmonth', hday, hday'⟩ := h
  rw [daysInMonth] at hday'
  exact ⟨show d.month - 1 < 12 by omega, by omega⟩

/-- A date lies in its year. -/
theorem toDays_lt : d.toDays < daysBefore (d.year + 1) := by
  have hlt := total_take_add_lt h.place.1 h.place.2
  rw [daysBefore_succ_eq_total, toDays, ordinal, daysBeforeMonth]
  omega

/-- The date of the day count of a date. -/
theorem ofDays_toDays : ofDays d.toDays = d := by
  have hmonth := h.month_pos
  have hday := h.day_pos
  have hyear : yearOf d.toDays = d.year := yearOf_eq (by rw [toDays]; omega) h.toDays_lt
  have hordinal : (d.toDays - daysBefore d.year).toNat = d.ordinal := by
    rw [toDays]
    omega
  have hsplit := splitOrdinal_eq h.place.1 h.place.2 1
  have hback : (1 + (d.month - 1), d.day - 1 + 1) = (d.month, d.day) := Prod.ext (by omega) (by omega)
  rw [ofDays]
  simp only [hyear, hordinal]
  rw [ordinal, daysBeforeMonth, hsplit, hback]

end IsDay

/-- Every day has a date. -/
theorem exists_toDays (days : Int) : ∃ d : Date, d.IsDay ∧ d.toDays = days := by
  obtain ⟨hfrom, hto⟩ := daysBefore_yearOf days
  have ho : (days - daysBefore (yearOf days)).toNat < total (monthLengths (isLeap (yearOf days))) := by
    rw [daysBefore_succ_eq_total] at hto
    omega
  obtain ⟨i, j, hi, hj, heq⟩ := exists_split ho
  have hi' : i < 12 := hi
  refine ⟨⟨yearOf days, i + 1, j + 1⟩, ⟨Nat.succ_pos i, hi', Nat.succ_pos j, hj⟩, ?_⟩
  rw [toDays, ordinal, daysBeforeMonth]
  simp only [Nat.add_sub_cancel]
  omega

theorem isDay_ofDays (days : Int) : (ofDays days).IsDay := by
  obtain ⟨d, hd, rfl⟩ := exists_toDays days
  rwa [hd.ofDays_toDays]

/-- The day count of the date of a day. -/
theorem toDays_ofDays (days : Int) : (ofDays days).toDays = days := by
  obtain ⟨d, hd, rfl⟩ := exists_toDays days
  rw [hd.ofDays_toDays]

end Date

end ViewBridge.Calendar
