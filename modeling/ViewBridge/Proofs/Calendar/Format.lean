import ViewBridge.Calendar.Format
import ViewBridge.Proofs.Calendar.Layout
import ViewBridge.Proofs.Grammar.Translation
/-!
# Dates that are written and read again

The fields of a written date have fixed widths, so that the layout it is written in reads it again field by field;
and no layout that is tried before reads it, for a year of four digits. A date without a time of day stands for
the first second of the day.

Results:
* `readItems_write`: a layout reads what is written in it.
* `read?_write`: such a text stands for the instant of the fields of the layout.
* `read?_format`: the formats that are read again.
-/
namespace ViewBridge.Instant

open Calendar (Date)

/-! ## Padded numbers -/

theorem digitsValue_zeros (k : Nat) (ds : Chars) : digitsValue (List.replicate k '0' ++ ds) = digitsValue ds := by
  induction k with
  | zero => rfl
  | succ k ih => exact ih

theorem isDigit_of_mem_padded {width n : Nat} {c : Char} (h : c ∈ padded width n) : Text.isDigit c = true := by
  rw [padded, Text.padLeft, List.mem_append] at h
  rcases h with h | h
  · rw [List.eq_of_mem_replicate h]
    rfl
  · exact Shelf.isDigit_of_mem_ofNat h

theorem digitsValue_padded (width n : Nat) : digitsValue (padded width n) = n := by
  rw [padded, Text.padLeft, digitsValue_zeros, Shelf.digitsValue_ofNat]

section
variable {width n : Nat} {r : Chars} (hwidth : 0 < width) (hn : n < 10 ^ width)
include hwidth hn

theorem length_padded : (padded width n).length = width := by
  have hle := (Nat.length_toDigits_le_iff (b := 10) (by decide) hwidth).2 hn
  rw [padded, Text.padLeft, List.length_append, List.length_replicate, Text.ofNat]
  omega

theorem padded_ne_nil : padded width n ≠ [] := by
  rw [← List.length_pos_iff, length_padded hwidth hn]
  exact hwidth

theorem dropWhile_padded : (padded width n ++ r).dropWhile Text.isBlank = padded width n ++ r := by
  obtain ⟨c, s, hs⟩ := List.exists_cons_of_ne_nil (padded_ne_nil hwidth hn)
  have hc := isBlank_of_isDigit (isDigit_of_mem_padded (hs ▸ List.mem_cons_self))
  rw [hs, List.cons_append, List.dropWhile_cons_of_neg (Bool.eq_false_iff.1 hc)]

theorem readDigits_padded : readDigits width (padded width n ++ r) = some (n, r) := by
  have hlength := length_padded hwidth hn
  rw [readDigits, List.take_left' hlength, List.drop_left' hlength,
    if_pos ⟨hlength, List.all_eq_true.2 fun _ => isDigit_of_mem_padded⟩, digitsValue_padded]

theorem readNumber_padded (hfits : (n : Int) ≤ int64Max) : readNumber width (padded width n ++ r) = some (n, r) :=
  readNumber_eq_some_iff.2 ⟨_, rfl, (digitsValue_padded width n).symm, padded_ne_nil hwidth hn,
    (length_padded hwidth hn).le, fun _ => isDigit_of_mem_padded, by rwa [digitsValue_padded],
    .inl (length_padded hwidth hn)⟩

end

/-- A number of two digits is read. -/
theorem readNumber_two_padded {n : Nat} {r : Chars} (hn : n < 100) :
    readNumber 2 ((padded 2 n ++ r).dropWhile Text.isBlank) = some (n, r) := by
  rw [dropWhile_padded (by decide) hn]
  exact readNumber_padded (by decide) hn (by rw [show int64Max = 9223372036854775807 from rfl]; omega)

/-- A number of four digits is read as a year. -/
theorem readYear_padded {n : Nat} {r : Chars} (hn : n < 10000) :
    readYear ((padded 4 n ++ r).dropWhile Text.isBlank) = some ((n : Int), r) := by
  rw [dropWhile_padded (by decide) hn]
  have hnumber : readNumber 4 (padded 4 n ++ r) = some (n, r) :=
    readNumber_padded (by decide) hn (by rw [show int64Max = 9223372036854775807 from rfl]; omega)
  obtain ⟨c, s, hs, hc⟩ := exists_digit_of_readNumber hnumber
  rw [hs] at hnumber ⊢
  rw [readYear_of_digit hc, hnumber]
  rfl

/-- A year of four digits needs no zeros. -/
theorem ofInt_eq_padded {y : Int} (hfrom : 1000 ≤ y) (hto : y ≤ 9999) : Text.ofInt y = padded 4 y.toNat := by
  obtain ⟨n, rfl⟩ := Int.eq_ofNat_of_zero_le (show 0 ≤ y by omega)
  have hlength := (Nat.length_toDigits_le_iff (b := 10) (n := n) (k := 3) (by decide) (by decide)).not.2 (by omega)
  rw [padded, Text.padLeft, Int.toNat_natCast, Text.ofNat, show 4 - (Nat.toDigits 10 n).length = 0 by omega]
  rfl

/-! ## The text of a layout -/

namespace Item

/-- The items that are numbers. -/
def isField : Item → Bool
  | .literal _ | .space => false
  | _ => true

/-- An item of an instant, as a format writes it. -/
def write (t : Instant) : Item → Chars
  | .year => Text.ofInt t.date.year
  | .month => padded 2 t.date.month
  | .day => padded 2 t.date.day
  | .hour => padded 2 t.hour
  | .minute => padded 2 t.minute
  | .second => padded 2 t.second
  | .literal c => [c]
  | .space => [' ']

/-- What is read of an item of an instant. -/
def put (t : Instant) (f : Fields) : Item → Fields
  | .year => { f with date := { f.date with year := t.date.year } }
  | .month => { f with date := { f.date with month := t.date.month } }
  | .day => { f with date := { f.date with day := t.date.day } }
  | .hour => { f with hour := t.hour }
  | .minute => { f with minute := t.minute }
  | .second => { f with second := t.second }
  | .literal _ | .space => f

end Item

theorem month_lt (t : Instant) : t.date.month < 100 := by
  have hle := (Date.isDay_ofDays t.days).month_le
  rw [date]
  omega

theorem day_lt (t : Instant) : t.date.day < 100 := by
  have hmonths : ∀ leap, ∀ i < 12, (Calendar.monthLengths leap).getD i 0 ≤ 31 := by decide
  have hplace := (Date.isDay_ofDays t.days).place
  have hle := hmonths (Calendar.isLeap (Date.ofDays t.days).year) _ hplace.1
  rw [date]
  omega

theorem hour_lt (t : Instant) : t.hour < 24 := by
  rw [hour, secondOfDay]
  omega

theorem minute_lt (t : Instant) : t.minute < 60 := Nat.mod_lt _ (by decide)

theorem second_lt (t : Instant) : t.second < 60 := Nat.mod_lt _ (by decide)

section
variable {t : Instant} {f : Fields} {r : Chars} (hfrom : 1000 ≤ t.date.year) (hto : t.date.year ≤ 9999)
include hfrom hto

/-- A field is written with a fixed number of digits. -/
theorem exists_padded {item : Item} (h : item.isField = true) :
    ∃ width n, item.write t = padded width n ∧ 0 < width ∧ n < 10 ^ width := by
  cases item with
  | year => exact ⟨4, _, ofInt_eq_padded hfrom hto, by decide, by omega⟩
  | month => exact ⟨2, _, rfl, by decide, t.month_lt⟩
  | day => exact ⟨2, _, rfl, by decide, t.day_lt⟩
  | hour => exact ⟨2, _, rfl, by decide, t.hour_lt.trans (by decide)⟩
  | minute => exact ⟨2, _, rfl, by decide, t.minute_lt.trans (by decide)⟩
  | second => exact ⟨2, _, rfl, by decide, t.second_lt.trans (by decide)⟩
  | literal | space => exact nomatch h

/-- An item is read as it is written. -/
theorem Item.read_write {item : Item} (h : item ≠ .space) :
    item.read f (item.write t ++ r) = some (item.put t f, r) := by
  cases item with
  | literal c =>
    have hafter : Text.after? [c] ([c] ++ r) = some r := Text.after?_eq_some_iff.2 rfl
    rw [read, write, hafter]
    rfl
  | space => exact absurd rfl h
  | year =>
    have hyear : ((t.date.year.toNat : Int)) = t.date.year := by omega
    rw [read, write, ofInt_eq_padded hfrom hto, readYear_padded (by omega), hyear]
    rfl
  | month =>
    rw [read, write, readNumber_two_padded t.month_lt]
    rfl
  | day =>
    rw [read, write, readNumber_two_padded t.day_lt]
    rfl
  | hour =>
    rw [read, write, readNumber_two_padded (t.hour_lt.trans (by decide))]
    rfl
  | minute =>
    rw [read, write, readNumber_two_padded (t.minute_lt.trans (by decide))]
    rfl
  | second =>
    rw [read, write, readNumber_two_padded (t.second_lt.trans (by decide))]
    rfl

/-- A layout reads what is written in it, if no blank is written behind a space. -/
theorem readItems_write {layout : List Item} (h : layout.IsChain fun a b => a = .space → b.isField = true) :
    readItems layout f (layout.flatMap (Item.write t)) = some (layout.foldl (Item.put t) f) := by
  induction layout generalizing f with
  | nil => rfl
  | cons item layout ih =>
    rw [List.isChain_cons] at h
    rw [readItems, List.flatMap_cons, List.foldl_cons]
    by_cases hspace : item = .space
    · subst hspace
      have hbehind : (layout.flatMap (Item.write t)).dropWhile Text.isBlank = layout.flatMap (Item.write t) := by
        cases layout with
        | nil => rfl
        | cons next layout =>
          obtain ⟨width, n, heq, hwidth, hn⟩ := exists_padded hfrom hto (h.1 next rfl rfl)
          rw [List.flatMap_cons, heq, dropWhile_padded hwidth hn]
      rw [Item.read, Item.write, List.singleton_append, List.dropWhile_cons_of_pos (by decide), hbehind,
        Option.bind_some]
      exact ih h.2
    · rw [Item.read_write hfrom hto hspace, Option.bind_some]
      exact ih h.2

/-- A layout starts and ends with a field, hence with digits. -/
theorem trim_write {l : List Item} (hl : l ∈ layouts) :
    Text.trimWhile Text.isBlank (l.flatMap (Item.write t)) = l.flatMap (Item.write t) := by
  have hends : ∀ l ∈ layouts, (∀ a ∈ l.head?, a.isField = true) ∧ ∀ a ∈ l.getLast?, a.isField = true := by decide
  have hfield {item : Item} (h : item.isField = true) :
      item.write t ≠ [] ∧ ∀ c ∈ item.write t, Text.isBlank c = false := by
    obtain ⟨width, n, heq, hwidth, hn⟩ := exists_padded hfrom hto h
    rw [heq]
    exact ⟨padded_ne_nil hwidth hn, fun _ hc => isBlank_of_isDigit (isDigit_of_mem_padded hc)⟩
  obtain ⟨hhead, hlast⟩ := hends l hl
  refine Expression.trimWhile_eq_self_of_ends ?_ ?_
  · cases l with
    | nil => exact fun _ hc => nomatch hc
    | cons first l =>
      obtain ⟨hne, hblank⟩ := hfield (hhead first rfl)
      rw [List.flatMap_cons, List.head?_append_of_ne_nil _ hne]
      exact fun c hc => hblank c (List.mem_of_mem_head? hc)
  · cases l using List.reverseRecOn with
    | nil => exact fun _ hc => nomatch hc
    | append_singleton l last =>
      obtain ⟨hne, hblank⟩ := hfield (hlast last List.getLast?_concat)
      rw [List.flatMap_append, List.flatMap_singleton, List.getLast?_append_of_ne_nil _ hne]
      exact fun c hc => hblank c (List.mem_of_getLast? hc)

/-- The text of a layout stands for the instant of its fields. -/
theorem read?_write {l : List Item} (hl : l ∈ layouts) {u : Instant}
    (h : (l.foldl (Item.put t) { date := ⟨0, 0, 0⟩ }).instant? = some u) (hyear : 1000 ≤ u.date.year) :
    read? (l.flatMap (Item.write t)) = some u := by
  have hspaced : ∀ l ∈ layouts, l.IsChain fun a b => a = .space → b.isField = true := by decide
  refine read?_of_readLayout? hl ?_ hyear
  rw [trim_write hfrom hto hl, readLayout?, readItems_write hfrom hto (hspaced l hl), Option.bind_some, h]

end

/-! ## Instants of fields -/

/-- The first second of the day. -/
def midnight (t : Instant) : Instant := ⟨t.secs - t.secondOfDay, 0⟩

theorem secs_eq (t : Instant) : t.secs = (t.date.toDays - epochDay) * 86400 + t.secondOfDay := by
  rw [date, Date.toDays_ofDays, days, secondOfDay]
  omega

theorem date_midnight (t : Instant) : t.midnight.date = t.date := by
  have hdays : t.midnight.days = t.days := by
    simp only [days, midnight, secondOfDay]
    omega
  rw [date, date, hdays]

/-- The instant of a date and a time of day. -/
theorem instant?_eq_some {d : Date} (hvalid : d.isValid = true) {hour minute second : Nat} (hhour : hour ≤ 23)
    (hminute : minute ≤ 59) (hsecond : second ≤ 59) : Fields.instant? ⟨d, hour, minute, second, 0⟩ =
      some ⟨(d.toDays - epochDay) * 86400 + (hour * 3600 + minute * 60 + second : Nat), 0⟩ := by
  rw [Fields.instant?, if_pos ⟨hvalid, hhour, hminute, hsecond.trans (by decide)⟩]
  simp only [min_eq_left hsecond]
  rw [if_neg (by omega)]

section
variable {t : Instant} (hvalid : t.date.isValid = true)
include hvalid

/-- The date and the time of whole seconds are those of the instant. -/
theorem instant?_fields (hwhole : t.nanos = 0) :
    Fields.instant? ⟨t.date, t.hour, t.minute, t.second, 0⟩ = some t := by
  have htime : t.hour * 3600 + t.minute * 60 + t.second = t.secondOfDay := by
    simp only [hour, minute, second]
    omega
  rw [instant?_eq_some hvalid (Nat.le_of_lt_succ t.hour_lt) (Nat.le_of_lt_succ t.minute_lt)
    (Nat.le_of_lt_succ t.second_lt), htime, ← secs_eq, ← hwhole]

/-- A date without a time of day. -/
theorem instant?_date : Fields.instant? ⟨t.date, 0, 0, 0, 0⟩ = some t.midnight := by
  rw [instant?_eq_some hvalid (by decide) (by decide) (by decide), midnight, secs_eq, Int.add_sub_cancel]
  exact congrArg (fun secs => some (⟨secs, 0⟩ : Instant)) (Int.add_zero _)

end

/-! ## Formats -/

section
variable {t : Instant} (hfrom : 1000 ≤ t.date.year) (hto : t.date.year ≤ 9999)
include hfrom hto

theorem isValid_date : t.date.isValid = true :=
  Date.isValid_iff.2 ⟨Date.isDay_ofDays t.days, by omega, by omega⟩

/-- The internet date format, part by part. -/
theorem format_internet (hwhole : t.nanos = 0) : t.format "c".toList = (padded 4 t.date.year.toNat ++ '-' ::
    (padded 2 t.date.month ++ '-' :: (padded 2 t.date.day ++ 'T' :: (padded 2 t.hour ++ ':' ::
      (padded 2 t.minute ++ ':' :: padded 2 t.second))))) ++ "+00:00".toList := by
  have hyear : longYear t.date.year = padded 4 t.date.year.toNat := if_pos ⟨by omega, hto⟩
  have hclock : t.clock = padded 2 t.hour ++ ':' :: padded 2 t.minute ++ ':' :: padded 2 t.second := by
    rw [clock, hwhole]
    rfl
  change longYear t.date.year ++ '-' :: padded 2 t.date.month ++ '-' :: padded 2 t.date.day ++ 'T' ::
    t.clock ++ "+00:00".toList ++ [] = _
  simp only [hyear, hclock, List.append_assoc, List.cons_append, List.append_nil]

/-- The internet date format is read again. -/
theorem readInternet?_format (hwhole : t.nanos = 0) : readInternet? (t.format "c".toList) = some t := by
  have hback : ((t.date.year.toNat : Nat) : Int) = t.date.year := by omega
  have hfour {n : Nat} (hn : n < 10000) (r : Chars) : readDigits 4 (padded 4 n ++ r) = some (n, r) :=
    readDigits_padded (by decide) hn
  have htwo {n : Nat} (hn : n < 100) (r : Chars) : readDigits 2 (padded 2 n ++ r) = some (n, r) :=
    readDigits_padded (by decide) hn
  have hoffset : readOffset "+00:00".toList = some 0 := by decide
  have hfraction : readFraction "+00:00".toList = some (0, "+00:00".toList) := by decide
  rw [format_internet hfrom hto hwhole]
  simp only [List.append_assoc, List.cons_append]
  refine readInternet?_eq_some_iff.2 ⟨_, _, _, _, _, _, _, _, t, 'T', _, _, _, _, _, _, _,
    ⟨hfour (by omega) _, htwo t.month_lt _, htwo t.day_lt _, .inl rfl⟩,
    ⟨htwo (t.hour_lt.trans (by decide)) _, htwo (t.minute_lt.trans (by decide)) _,
      htwo (t.second_lt.trans (by decide)) _, hfraction, hoffset⟩, ?_, ?_⟩
  · rw [hback]
    exact instant?_fields (isValid_date hfrom hto) hwhole
  · rw [Int.sub_zero]

/-- It stands for the instant: it starts and ends with a digit. -/
theorem read?_internet (hwhole : t.nanos = 0) : read? (t.format "c".toList) = some t := by
  have htrim : Text.trimWhile Text.isBlank (t.format "c".toList) = t.format "c".toList := by
    refine Expression.trimWhile_eq_self_of_ends ?_ ?_
    · rw [format_internet hfrom hto hwhole, List.append_assoc,
        List.head?_append_of_ne_nil _ (padded_ne_nil (by decide) (by omega))]
      exact fun c hc => isBlank_of_isDigit (isDigit_of_mem_padded (List.mem_of_mem_head? hc))
    · rw [format_internet hfrom hto hwhole, List.getLast?_append_of_ne_nil _ (by decide)]
      exact fun c hc => Option.some.inj hc ▸ rfl
  refine read?_of_readInternet? ?_
  rw [htrim, readInternet?_format hfrom hto hwhole]

theorem int64_secs : int64Min ≤ t.secs ∧ t.secs ≤ int64Max := by
  obtain ⟨hle, hlt⟩ := Calendar.daysBefore_yearOf t.days
  have hmin := (Calendar.daysBefore_mono hfrom).trans hle
  have hmax := hlt.trans_le (Calendar.daysBefore_mono (show t.date.year + 1 ≤ 10000 by omega))
  rw [days, epochDay] at hmin hmax
  rw [show Calendar.daysBefore 1000 = 364877 from rfl] at hmin
  rw [show Calendar.daysBefore 10000 = 3652059 from rfl] at hmax
  rw [show int64Min = -9223372036854775808 from rfl, show int64Max = 9223372036854775807 from rfl]
  omega

/-- Whole seconds are read again. -/
theorem read?_seconds (hwhole : t.nanos = 0) : read? (t.format "U".toList) = some t := by
  have hblank : ∀ c ∈ Text.ofInt t.secs, Text.isBlank c = false := by
    intro c hc
    cases hsecs : t.secs with
    | ofNat n =>
      rw [hsecs] at hc
      exact isBlank_of_isDigit (Shelf.isDigit_of_mem_ofNat hc)
    | negSucc n =>
      rw [hsecs, Text.ofInt, List.mem_cons] at hc
      rcases hc with rfl | hc
      · rfl
      · exact isBlank_of_isDigit (Shelf.isDigit_of_mem_ofNat hc)
  have htrim : Text.trimWhile Text.isBlank (Text.ofInt t.secs) = Text.ofInt t.secs :=
    Expression.trimWhile_eq_self_of_ends (fun c hc => hblank c (List.mem_of_mem_head? hc))
      fun c hc => hblank c (List.mem_of_getLast? hc)
  have htext : t.format "U".toList = Text.ofInt t.secs := List.append_nil _
  have hself : (⟨t.secs, 0⟩ : Instant) = t := by rw [← hwhole]
  rw [read?, htext, htrim, readInt64?, readInt?_ofInt, if_pos (int64_secs hfrom hto)]
  simp only [ofSeconds?, hself, isValid_date hfrom hto, if_true]

/-- A layout with seconds stands for the instant. -/
theorem read?_write_seconds (hwhole : t.nanos = 0) {l : List Item} (hl : l ∈ layouts)
    (hput : l.foldl (Item.put t) { date := ⟨0, 0, 0⟩ } = ⟨t.date, t.hour, t.minute, t.second, 0⟩) :
    read? (l.flatMap (Item.write t)) = some t :=
  read?_write hfrom hto hl (hput ▸ instant?_fields (isValid_date hfrom hto) hwhole) hfrom

/-- A layout of a date stands for the first second of the day. -/
theorem read?_write_date {l : List Item} (hl : l ∈ layouts)
    (hput : l.foldl (Item.put t) { date := ⟨0, 0, 0⟩ } = ⟨t.date, 0, 0, 0, 0⟩) :
    read? (l.flatMap (Item.write t)) = some t.midnight :=
  read?_write hfrom hto hl (hput ▸ instant?_date (isValid_date hfrom hto)) (by rwa [date_midnight])

end

/-- Whole seconds of the years 1000 to 9999 that are written in one of these formats are read again, the day alone as
its first second. A text in the internet date format, or one that a layout reads with a year from 1000 on, stands for
what is read of it there: nothing that is tried before takes it for something else. -/
theorem read?_format :
    (∀ t : Instant, t.nanos = 0 → 1000 ≤ t.date.year → t.date.year ≤ 9999 →
      (∀ f ∈ ["Y-m-d H:i:s", "d-m-Y H:i:s", "d/m/Y H:i:s", "c", "U"], read? (t.format f.toList) = some t) ∧
      ∀ f ∈ ["Y-m-d", "d-m-Y", "d/m/Y"], read? (t.format f.toList) = some t.midnight) ∧
    ∀ (s : Chars) (t : Instant),
      (readInternet? (Text.trimWhile Text.isBlank s) = some t → read? s = some t) ∧
      ∀ l ∈ layouts, readLayout? l (Text.trimWhile Text.isBlank s) = some t → 1000 ≤ t.date.year →
        read? s = some t := by
  refine ⟨fun t hwhole hfrom hto => ?_, fun s t => ⟨read?_of_readInternet?, fun l hl => read?_of_readLayout? hl⟩⟩
  simp only [List.forall_mem_cons, List.not_mem_nil, false_imp_iff, implies_true, and_true]
  refine ⟨⟨?_, ?_, ?_, read?_internet hfrom hto hwhole, read?_seconds hfrom hto hwhole⟩, ?_, ?_, ?_⟩
  · exact read?_write_seconds hfrom hto hwhole (l := yearFirst ++ seconds) (by decide) rfl
  · exact read?_write_seconds hfrom hto hwhole (l := dayFirst '-' ++ seconds) (by decide) rfl
  · exact read?_write_seconds hfrom hto hwhole (l := dayFirst '/' ++ seconds) (by decide) rfl
  · exact read?_write_date hfrom hto (l := yearFirst) (by decide) rfl
  · exact read?_write_date hfrom hto (l := dayFirst '-') (by decide) rfl
  · exact read?_write_date hfrom hto (l := dayFirst '/') (by decide) rfl

/-- An afternoon in March, written with the day first. -/
theorem read?_format_march :
    ((⟨1709647629, 0⟩ : Instant).nanos = 0 ∧ 1000 ≤ (⟨1709647629, 0⟩ : Instant).date.year ∧
      (⟨1709647629, 0⟩ : Instant).date.year ≤ 9999 ∧
      read? "05-03-2024 14:07:09".toList = some ⟨1709647629, 0⟩ ∧ read? "05-03-2024".toList = some ⟨1709596800, 0⟩) ∧
    dayFirst '-' ++ minutes ∈ layouts ∧
      readLayout? (dayFirst '-' ++ minutes) (Text.trimWhile Text.isBlank "5-3-2024 14:07".toList) =
        some ⟨1709647620, 0⟩ ∧
      read? "5-3-2024 14:07".toList = some ⟨1709647620, 0⟩ := by
  have hfrom : 1000 ≤ (⟨1709647629, 0⟩ : Instant).date.year := by decide +kernel
  have hto : (⟨1709647629, 0⟩ : Instant).date.year ≤ 9999 := by decide +kernel
  have hfull : (⟨1709647629, 0⟩ : Instant).format "d-m-Y H:i:s".toList = "05-03-2024 14:07:09".toList := by
    decide +kernel
  have hday : (⟨1709647629, 0⟩ : Instant).format "d-m-Y".toList = "05-03-2024".toList := by decide +kernel
  have hmidnight : (⟨1709647629, 0⟩ : Instant).midnight = ⟨1709596800, 0⟩ := by decide +kernel
  have hlayout : dayFirst '-' ++ minutes ∈ layouts := by decide
  have hread : readLayout? (dayFirst '-' ++ minutes) (Text.trimWhile Text.isBlank "5-3-2024 14:07".toList) =
      some ⟨1709647620, 0⟩ := by
    decide +kernel
  obtain ⟨hseconds, hdays⟩ := read?_format.1 ⟨1709647629, 0⟩ rfl hfrom hto
  have hlate := (read?_format.2 "5-3-2024 14:07".toList ⟨1709647620, 0⟩).2 _ hlayout hread (by decide +kernel)
  rw [← hfull, ← hday, ← hmidnight]
  exact ⟨⟨rfl, hfrom, hto, hseconds _ (by simp), hdays _ (by simp)⟩, hlayout, hread, hlate⟩

-- The bound on the year is needed: a day of two digits could be a year of two digits.
example : readLayout? (dayFirst '-' ++ minutes) "01-02-03 04:05".toList ≠ read? "01-02-03 04:05".toList := by
  decide +kernel

end ViewBridge.Instant
