import ViewBridge.Calendar.Instant
import ViewBridge.Proofs.Calendar.Date
import ViewBridge.Proofs.Number.Leading
/-!
# Which layout reads a text

A number is read as the longest run of digits that its field has room for. What a layout reads has the marks of the
layout, the colons and slashes, in their order; a text in the internet date format has more, and whole seconds have
neither these nor a hyphen between digits. That leaves the layouts that differ only in whether the year or the day is
first: a day leaves two of the four digits of a year unread.

Results:
* `readNumber_eq_some_iff`, `readInternet?_eq_some_iff`: what is read of a text, by its parts.
* `marks_of_readItems`: the marks of what a layout reads.
* `eq_of_readItems`: a text with a year from 1000 on is read by one layout only.
* `read?_of_readInternet?`, `read?_of_readLayout?`: a text in the internet date format, or with such a year, stands for
  what is read of it there.
-/
namespace ViewBridge.Instant

variable {f f' g g' : Fields} {s r : Chars} {n v : Nat}

/-! ## Numbers -/

/-- A run of digits at the start of a text that fills the room it has or ends before something else. -/
structure IsNumber (n : Nat) (ds r : Chars) : Prop where
  ne_nil : ds ≠ []
  length_le : ds.length ≤ n
  digits : ∀ c ∈ ds, Text.isDigit c = true
  fits : (digitsValue ds : Int) ≤ int64Max
  stops : ds.length = n ∨ ∀ c ∈ r.head?, Text.isDigit c = false

/-- A run within the first `n` characters ends there or before something else. -/
theorem exists_run (p : Char → Bool) (n : Nat) (s : Chars) : ∃ ds r, (s.take n).takeWhile p = ds ∧ s = ds ++ r ∧
    ds.length ≤ n ∧ (ds.length = n ∨ ∀ c ∈ r.head?, p c = false) := by
  induction s generalizing n with
  | nil => exact ⟨[], [], by simp, rfl, Nat.zero_le n, .inr fun _ hc => nomatch hc⟩
  | cons c s ih =>
    cases n with
    | zero => exact ⟨[], c :: s, rfl, rfl, Nat.le_refl 0, .inl rfl⟩
    | succ n =>
      rw [List.take_succ_cons]
      by_cases hc : p c = true
      · obtain ⟨ds, r, htake, rfl, hlength, hstops⟩ := ih n
        exact ⟨c :: ds, r, by rw [List.takeWhile_cons_of_pos hc, htake], rfl, Nat.succ_le_succ hlength,
          hstops.imp_left (congrArg (· + 1))⟩
      · exact ⟨[], c :: s, List.takeWhile_cons_of_neg hc, rfl, Nat.zero_le _,
          .inr fun _ hd => Option.some.inj hd ▸ Bool.eq_false_iff.2 hc⟩

/-- Such a run is the one that is taken. -/
theorem takeWhile_take_append {p : Char → Bool} {ds : Chars} (hlength : ds.length ≤ n) (hds : ∀ c ∈ ds, p c = true)
    (hstops : ds.length = n ∨ ∀ c ∈ r.head?, p c = false) : ((ds ++ r).take n).takeWhile p = ds := by
  rw [List.take_append, List.take_of_length_le hlength, List.takeWhile_append_of_pos hds]
  refine (congrArg (ds ++ ·) ?_).trans (List.append_nil ds)
  rcases hstops with rfl | hstops
  · rw [Nat.sub_self, List.take_zero, List.takeWhile_nil]
  · cases r with
    | nil => rw [List.take_nil, List.takeWhile_nil]
    | cons c r =>
      cases n - ds.length with
      | zero => rfl
      | succ k => rw [List.take_succ_cons, List.takeWhile_cons_of_neg (Bool.eq_false_iff.1 (hstops c rfl))]

/-- The number at the start of a text. -/
theorem readNumber_eq_some_iff :
    readNumber n s = some (v, r) ↔ ∃ ds, s = ds ++ r ∧ v = digitsValue ds ∧ IsNumber n ds r := by
  constructor
  · intro h
    obtain ⟨ds, r', htake, rfl, hlength, hstops⟩ := exists_run Text.isDigit n s
    rw [readNumber, htake] at h
    split at h
    · exact nomatch h
    case isFalse hfits =>
      rw [not_or, Int.not_lt] at hfits
      obtain ⟨rfl, rfl⟩ := Prod.mk.inj (Option.some.inj h)
      rw [List.drop_left]
      exact ⟨ds, rfl, rfl, hfits.1, hlength, fun c hc => List.mem_takeWhile_imp (htake ▸ hc), hfits.2, hstops⟩
  · rintro ⟨ds, rfl, rfl, hne, hlength, hds, hfits, hstops⟩
    rw [readNumber, takeWhile_take_append hlength hds hstops, if_neg (by rw [not_or, Int.not_lt]; exact ⟨hne, hfits⟩),
      List.drop_left]

theorem digitsValue_lt {ds : Chars} (h : ∀ c ∈ ds, Text.isDigit c = true) : digitsValue ds < 10 ^ ds.length := by
  induction ds using List.reverseRecOn with
  | nil => exact Nat.one_pos
  | append_singleton ds c ih =>
    have hds := ih fun d hd => h d (List.mem_append_left _ hd)
    have hc := h c (List.mem_append_right _ List.mem_cons_self)
    have hnine : c.toNat ≤ 57 := by
      rw [Text.isDigit, Bool.and_eq_true, decide_eq_true_eq, decide_eq_true_eq] at hc
      exact hc.2
    rw [Shelf.digitsValue_concat, List.length_append, List.length_singleton, Nat.pow_succ]
    omega

theorem isBlank_of_isDigit {c : Char} (h : Text.isDigit c = true) : Text.isBlank c = false :=
  Expression.isBlank_of_isNameChar (by rw [Text.isNameChar, h, Bool.or_true])

/-- A number starts with a digit. -/
theorem exists_digit_of_readNumber (h : readNumber n s = some (v, r)) :
    ∃ c s', s = c :: s' ∧ Text.isDigit c = true := by
  obtain ⟨ds, rfl, -, hds⟩ := readNumber_eq_some_iff.1 h
  obtain ⟨c, ds', rfl⟩ := List.exists_cons_of_ne_nil hds.ne_nil
  exact ⟨c, ds' ++ r, rfl, hds.digits c List.mem_cons_self⟩

theorem readNumber_of_not_digit {c : Char} (hc : Text.isDigit c = false) : readNumber n (c :: s) = none := by
  rw [Option.eq_none_iff_forall_ne_some]
  rintro ⟨v, r⟩ h
  obtain ⟨d, s', heq, hd⟩ := exists_digit_of_readNumber h
  rw [← (List.cons.inj heq).1, hc] at hd
  exact Bool.false_ne_true hd

/-- The room for a number in front of something else does not matter. -/
theorem dropWhile_of_readNumber {c : Char} (h : readNumber n s = some (v, c :: r)) (hc : Text.isDigit c = false) :
    s.dropWhile Text.isDigit = c :: r := by
  obtain ⟨ds, rfl, -, hds⟩ := readNumber_eq_some_iff.1 h
  rw [List.dropWhile_append_of_pos hds.digits, List.dropWhile_cons_of_neg (Bool.eq_false_iff.1 hc)]

/-- Two digits are read of a text that starts with two. -/
theorem readNumber_two {c d : Char} (hc : Text.isDigit c = true) (hd : Text.isDigit d = true)
    (h : readNumber 2 (c :: d :: s) = some (v, r)) : r = s := by
  have htake : ((c :: d :: s).take 2).takeWhile Text.isDigit = [c, d] := by
    rw [List.take_succ_cons, List.take_succ_cons, List.take_zero, List.takeWhile_cons_of_pos hc,
      List.takeWhile_cons_of_pos hd, List.takeWhile_nil]
  rw [readNumber, htake] at h
  split at h
  · exact nomatch h
  · exact (Prod.mk.inj (Option.some.inj h)).2.symm

theorem readYear_of_digit {c : Char} (hc : Text.isDigit c = true) :
    readYear (c :: s) = (readNumber 4 (c :: s)).map fun (n, r) => ((n : Int), r) := by
  obtain ⟨hminus, hplus⟩ := ne_sign_of_isDigit hc
  unfold readYear
  split
  · exact absurd (List.cons.inj ‹_›).1 hminus
  · exact absurd (List.cons.inj ‹_›).1 hplus
  · rfl

/-- A year is a number behind a sign, or one of at most four digits. -/
theorem readYear_cases {y : Int} (h : readYear s = some (y, r)) : ∃ v,
    (∃ s', s = '-' :: s' ∧ readNumber s'.length s' = some (v, r) ∧ y = -v) ∨
    (∃ s', s = '+' :: s' ∧ readNumber s'.length s' = some (v, r) ∧ y = v) ∨
    (readNumber 4 s = some (v, r) ∧ y = v) := by
  unfold readYear at h
  split at h
  all_goals
    obtain ⟨⟨v, r'⟩, hread, heq⟩ := Option.map_eq_some_iff.1 h
    obtain ⟨rfl, rfl⟩ := Prod.mk.inj heq
  · exact ⟨v, .inl ⟨_, rfl, hread, rfl⟩⟩
  · exact ⟨v, .inr (.inl ⟨_, rfl, hread, rfl⟩)⟩
  · exact ⟨v, .inr (.inr ⟨hread, rfl⟩)⟩

/-- A year from 1000 on has a sign or four digits. -/
theorem readYear_long {y : Int} (h : readYear s = some (y, r)) (hy : 1000 ≤ y) :
    (∃ s', s = '+' :: s') ∨ ∃ a b c d, s = a :: b :: c :: d :: r ∧ ∀ x ∈ [a, b, c, d], Text.isDigit x = true := by
  obtain ⟨v, ⟨_, -, -, rfl⟩ | ⟨s', rfl, -⟩ | ⟨hread, rfl⟩⟩ := readYear_cases h
  · omega
  · exact .inl ⟨s', rfl⟩
  · obtain ⟨ds, rfl, rfl, hds⟩ := readNumber_eq_some_iff.1 hread
    have hlt := digitsValue_lt hds.digits
    have hlength : ds.length = 4 := by
      have hle := hds.length_le
      by_contra hne
      have := Nat.pow_le_pow_right (show 0 < 10 by decide) (show ds.length ≤ 3 by omega)
      omega
    match ds, hlength with
    | [a, b, c, d], _ => exact .inr ⟨a, b, c, d, rfl, hds.digits⟩

/-! ## Dates and times of day -/

/-- At the end of a layout the text is read through. -/
theorem of_readItems_nil (h : readItems [] f s = some g) : s = [] ∧ g = f := by
  rw [readItems, Option.ite_none_right_eq_some] at h
  exact ⟨h.1, (Option.some.inj h.2).symm⟩

section
variable {time : List Item}

/-- What is read of a text that starts with the year. -/
theorem exists_of_readItems_yearFirst (h : readItems (yearFirst ++ time) f s = some g) :
    ∃ year month day s₁ s₂ s₃, readYear (s.dropWhile Text.isBlank) = some (year, '-' :: s₁) ∧
      readNumber 2 (s₁.dropWhile Text.isBlank) = some (month, '-' :: s₂) ∧
      readNumber 2 (s₂.dropWhile Text.isBlank) = some (day, s₃) ∧
      readItems time { f with date := ⟨year, month, day⟩ } s₃ = some g := by
  simp only [yearFirst, List.cons_append, List.nil_append, readItems, Item.read, Option.bind_eq_some_iff,
    Option.map_eq_some_iff, Prod.exists, Text.after?_eq_some_iff, Prod.mk.injEq, exists_eq_right_right] at h
  obtain ⟨_, _, ⟨year, hyear, rfl⟩, _, s₁, ⟨rfl, rfl⟩, _, _, ⟨month, hmonth, rfl⟩, _, s₂, ⟨rfl, rfl⟩, _, s₃,
    ⟨day, hday, rfl⟩, htime⟩ := h
  exact ⟨year, month, day, s₁, s₂, s₃, hyear, hmonth, hday, htime⟩

/-- What is read of a text that starts with the day. -/
theorem exists_of_readItems_dayFirst {c : Char} (h : readItems (dayFirst c ++ time) f s = some g) :
    ∃ year month day s₁ s₂ s₃, readNumber 2 (s.dropWhile Text.isBlank) = some (day, c :: s₁) ∧
      readNumber 2 (s₁.dropWhile Text.isBlank) = some (month, c :: s₂) ∧
      readYear (s₂.dropWhile Text.isBlank) = some (year, s₃) ∧
      readItems time { f with date := ⟨year, month, day⟩ } s₃ = some g := by
  simp only [dayFirst, List.cons_append, List.nil_append, readItems, Item.read, Option.bind_eq_some_iff,
    Option.map_eq_some_iff, Prod.exists, Text.after?_eq_some_iff, Prod.mk.injEq, exists_eq_right_right] at h
  obtain ⟨_, _, ⟨day, hday, rfl⟩, _, s₁, ⟨rfl, rfl⟩, _, _, ⟨month, hmonth, rfl⟩, _, s₂, ⟨rfl, rfl⟩, _, s₃,
    ⟨year, hyear, rfl⟩, htime⟩ := h
  exact ⟨year, month, day, s₁, s₂, s₃, hday, hmonth, hyear, htime⟩

/-- What is read of a text that starts with hours and minutes. -/
theorem exists_of_readItems_minutes (h : readItems (minutes ++ time) f s = some g) :
    ∃ hour minute s₁ s₂, readNumber 2 (s.dropWhile Text.isBlank) = some (hour, ':' :: s₁) ∧
      readNumber 2 (s₁.dropWhile Text.isBlank) = some (minute, s₂) ∧
      readItems time { f with hour, minute } s₂ = some g := by
  simp only [minutes, List.cons_append, List.nil_append, readItems, Item.read, Option.bind_eq_some_iff,
    Option.map_eq_some_iff, Prod.exists, Text.after?_eq_some_iff, Prod.mk.injEq, exists_eq_right_right,
    Option.bind_some, List.dropWhile_idempotent] at h
  obtain ⟨_, _, ⟨hour, hhour, rfl⟩, _, s₁, ⟨rfl, rfl⟩, _, s₂, ⟨minute, hminute, rfl⟩, htime⟩ := h
  exact ⟨hour, minute, s₁, s₂, hhour, hminute, htime⟩

end

/-- What a layout may have behind the date. -/
def timesOfDay : List (List Item) := [[], minutes, seconds]

theorem eq_minutes_append {time : List Item} (h : time ∈ timesOfDay) : time = [] ∨ ∃ rest, time = minutes ++ rest := by
  simp only [timesOfDay, List.mem_cons, List.not_mem_nil, or_false] at h
  obtain rfl | rfl | rfl := h
  · exact .inl rfl
  · exact .inr ⟨[], (List.append_nil _).symm⟩
  · exact .inr ⟨_, rfl⟩

section
variable {time time' : List Item} (ht : time ∈ timesOfDay)
include ht

/-- The time of day leaves the date. -/
theorem date_of_readItems (h : readItems time f s = some g) : g.date = f.date := by
  simp only [timesOfDay, List.mem_cons, List.not_mem_nil, or_false] at ht
  obtain rfl | rfl | rfl := ht
  · rw [(of_readItems_nil h).2]
  · rw [← List.append_nil minutes] at h
    obtain ⟨hour, minute, s₁, s₂, -, -, hend⟩ := exists_of_readItems_minutes h
    rw [(of_readItems_nil hend).2]
  · obtain ⟨hour, minute, s₁, s₂, -, -, hseconds⟩ := exists_of_readItems_minutes h
    obtain ⟨⟨_, s₃⟩, hcolon, hseconds⟩ := Option.bind_eq_some_iff.1 hseconds
    obtain ⟨_, -, heq⟩ := Option.map_eq_some_iff.1 hcolon
    obtain ⟨rfl, rfl⟩ := Prod.mk.inj heq
    obtain ⟨⟨_, s₄⟩, hsecond, hend⟩ := Option.bind_eq_some_iff.1 hseconds
    obtain ⟨⟨_, _⟩, -, heq⟩ := Option.map_eq_some_iff.1 hsecond
    obtain ⟨rfl, rfl⟩ := Prod.mk.inj heq
    rw [(of_readItems_nil hend).2]

/-- No time of day is read of one behind two more digits. -/
theorem readItems_of_digits (ht' : time' ∈ timesOfDay) (h : readItems time f s = some g) {c d : Char}
    (hc : Text.isDigit c = true) (hd : Text.isDigit d = true) : readItems time' f' (c :: d :: s) = none := by
  rw [Option.eq_none_iff_forall_ne_some]
  intro g' h'
  obtain rfl | ⟨rest', rfl⟩ := eq_minutes_append ht'
  · exact nomatch h'
  -- the digits are taken for the hours, and a colon would have to follow
  obtain ⟨hour, -, s₁, -, hhour, -, -⟩ := exists_of_readItems_minutes h'
  rw [List.dropWhile_cons_of_neg (Bool.eq_false_iff.1 (isBlank_of_isDigit hc))] at hhour
  obtain rfl := readNumber_two hc hd hhour
  obtain rfl | ⟨rest, rfl⟩ := eq_minutes_append ht
  · exact nomatch h
  · obtain ⟨hour', -, s₂, -, hhour', -, -⟩ := exists_of_readItems_minutes h
    rw [List.dropWhile_cons_of_neg (by decide), readNumber_of_not_digit rfl] at hhour'
    exact nomatch hhour'

/-- A text that starts with a long year is not read as one that starts with the day. -/
theorem readItems_dayFirst_of_yearFirst {c : Char} (hc : Text.isDigit c = false)
    (h : readItems (yearFirst ++ time) f s = some g) (hyear : 1000 ≤ g.date.year) :
    readItems (dayFirst c ++ time') f' s = none := by
  rw [Option.eq_none_iff_forall_ne_some]
  intro g' h'
  obtain ⟨year, _, _, s₁, _, _, hread, -, -, htime⟩ := exists_of_readItems_yearFirst h
  obtain ⟨-, -, day, s₁', -, -, hday, -⟩ := exists_of_readItems_dayFirst h'
  rw [date_of_readItems ht htime] at hyear
  obtain ⟨s', hs'⟩ | ⟨x, y, z, w, hs', hdigits⟩ := readYear_long hread hyear
  · rw [hs', readNumber_of_not_digit rfl] at hday
    exact nomatch hday
  · rw [hs'] at hday
    have heq := readNumber_two (hdigits x (by simp)) (hdigits y (by simp)) hday
    rw [← (List.cons.inj heq).1] at hdigits
    exact Bool.eq_false_iff.1 hc (hdigits c (by simp))

/-- A text that starts with the day and has a long year is not read as one that starts with the year. -/
theorem readItems_yearFirst_of_dayFirst (ht' : time' ∈ timesOfDay)
    (h : readItems (dayFirst '-' ++ time) f s = some g) (hyear : 1000 ≤ g.date.year) :
    readItems (yearFirst ++ time') f' s = none := by
  rw [Option.eq_none_iff_forall_ne_some]
  intro g' h'
  obtain ⟨year, month, day, s₁, s₂, s₃, hday, hmonth, hread, htime⟩ := exists_of_readItems_dayFirst h
  obtain ⟨year', month', day', s₁', s₂', s₃', hread', hmonth', hday', htime'⟩ := exists_of_readItems_yearFirst h'
  rw [date_of_readItems ht htime] at hyear
  -- the year and the month of the one reading are the day and the month of the other
  have hfirst : s₁' = s₁ := by
    obtain ⟨c, s', hs', hc⟩ := exists_digit_of_readNumber hday
    rw [hs'] at hday hread'
    rw [readYear_of_digit hc] at hread'
    obtain ⟨⟨k, r⟩, hnumber, heq⟩ := Option.map_eq_some_iff.1 hread'
    obtain ⟨-, rfl⟩ := Prod.mk.inj heq
    exact (List.cons.inj ((dropWhile_of_readNumber hnumber rfl).symm.trans (dropWhile_of_readNumber hday rfl))).2
  subst hfirst
  have hsecond : s₂' = s₂ := by
    rw [hmonth] at hmonth'
    exact (List.cons.inj (Prod.mk.inj (Option.some.inj hmonth')).2).2.symm
  subst hsecond
  obtain ⟨s', hs'⟩ | ⟨x, y, z, w, hs', hdigits⟩ := readYear_long hread hyear
  · rw [hs', readNumber_of_not_digit rfl] at hday'
    exact nomatch hday'
  · rw [hs'] at hday'
    obtain rfl := readNumber_two (hdigits x (by simp)) (hdigits y (by simp)) hday'
    rw [readItems_of_digits ht ht' htime (hdigits z (by simp)) (hdigits w (by simp))] at htime'
    exact nomatch htime'

end

/-! ## Marks -/

/-- The characters that are neither digits, blanks nor signs. -/
def isMark (c : Char) : Bool := !(Text.isDigit c || Text.isBlank c || c == '-' || c == '+')

/-- The marks that an item stands for. -/
def Item.marks : Item → Chars
  | .literal c => [c].filter isMark
  | _ => []

theorem isMark_of_isDigit {c : Char} (h : Text.isDigit c = true) : isMark c = false := by
  rw [isMark, h]
  rfl

theorem filter_isMark_dropWhile (s : Chars) : (s.dropWhile Text.isBlank).filter isMark = s.filter isMark := by
  have hblank : (s.takeWhile Text.isBlank).filter isMark = [] := by
    rw [List.filter_eq_nil_iff]
    intro c hc
    rw [isMark, List.mem_takeWhile_imp hc, Bool.or_true]
    exact Bool.false_ne_true
  conv_rhs => rw [← List.takeWhile_append_dropWhile (p := Text.isBlank) (l := s), List.filter_append, hblank,
    List.nil_append]

theorem filter_isMark_digits {ds : Chars} (h : ∀ c ∈ ds, Text.isDigit c = true) : ds.filter isMark = [] :=
  List.filter_eq_nil_iff.2 fun c hc => Bool.eq_false_iff.1 (isMark_of_isDigit (h c hc))

theorem marks_of_readNumber (h : readNumber n s = some (v, r)) : s.filter isMark = r.filter isMark := by
  obtain ⟨ds, rfl, -, hds⟩ := readNumber_eq_some_iff.1 h
  rw [List.filter_append, filter_isMark_digits hds.digits, List.nil_append]

theorem marks_of_readYear {y : Int} (h : readYear s = some (y, r)) : s.filter isMark = r.filter isMark := by
  obtain ⟨v, ⟨s', rfl, hread, -⟩ | ⟨s', rfl, hread, -⟩ | ⟨hread, -⟩⟩ := readYear_cases h
  · rw [List.filter_cons_of_neg (by decide), marks_of_readNumber hread]
  · rw [List.filter_cons_of_neg (by decide), marks_of_readNumber hread]
  · exact marks_of_readNumber hread

/-- An item takes its marks out of a text. -/
theorem Item.marks_of_read {item : Item} (h : item.read f s = some (g, r)) :
    s.filter isMark = item.marks ++ r.filter isMark := by
  cases item with
  | literal c =>
    obtain ⟨r', hafter, heq⟩ := Option.map_eq_some_iff.1 h
    obtain ⟨-, rfl⟩ := Prod.mk.inj heq
    rw [Text.after?_eq_some_iff.1 hafter, List.filter_append]
    rfl
  | space =>
    obtain ⟨-, rfl⟩ := Prod.mk.inj (Option.some.inj h)
    exact (filter_isMark_dropWhile s).symm
  | year =>
    obtain ⟨⟨y, r'⟩, hread, heq⟩ := Option.map_eq_some_iff.1 h
    obtain ⟨-, rfl⟩ := Prod.mk.inj heq
    rw [← filter_isMark_dropWhile, marks_of_readYear hread]
    rfl
  | month | day | hour | minute | second =>
    obtain ⟨⟨k, r'⟩, hread, heq⟩ := Option.map_eq_some_iff.1 h
    obtain ⟨-, rfl⟩ := Prod.mk.inj heq
    rw [← filter_isMark_dropWhile, marks_of_readNumber hread]
    rfl

/-- What a layout reads has the marks of the layout. -/
theorem marks_of_readItems {layout : List Item} (h : readItems layout f s = some g) :
    s.filter isMark = layout.flatMap Item.marks := by
  induction layout generalizing f s with
  | nil =>
    rw [(of_readItems_nil h).1]
    rfl
  | cons item layout ih =>
    obtain ⟨⟨f', r⟩, hitem, hrest⟩ := Option.bind_eq_some_iff.1 h
    rw [Item.marks_of_read hitem, ih hrest, List.flatMap_cons]

/-- Layouts with the same marks differ in nothing but the place of the year. -/
theorem eq_or_swapped : ∀ l ∈ layouts, ∀ l' ∈ layouts, l.flatMap Item.marks = l'.flatMap Item.marks → l = l' ∨
    ∃ time ∈ timesOfDay, (l = yearFirst ++ time ∧ l' = dayFirst '-' ++ time) ∨
      (l = dayFirst '-' ++ time ∧ l' = yearFirst ++ time) := by
  decide

/-- A text with a year from 1000 on is read by one layout only. -/
theorem eq_of_readItems {l l' : List Item} (hl : l ∈ layouts) (hl' : l' ∈ layouts) (h : readItems l f s = some g)
    (hyear : 1000 ≤ g.date.year) (h' : readItems l' f' s = some g') : l' = l := by
  have hmarks := (marks_of_readItems h).symm.trans (marks_of_readItems h')
  obtain heq | ⟨time, ht, ⟨rfl, rfl⟩ | ⟨rfl, rfl⟩⟩ := eq_or_swapped l hl l' hl' hmarks
  · exact heq.symm
  · rw [readItems_dayFirst_of_yearFirst ht rfl h hyear] at h'
    exact nomatch h'
  · rw [readItems_yearFirst_of_dayFirst ht ht h hyear] at h'
    exact nomatch h'

/-! ## Whole seconds and the internet date format -/

theorem marks_of_readDigits (h : readDigits n s = some (v, r)) : s.filter isMark = r.filter isMark := by
  rw [readDigits] at h
  split at h
  case isTrue hds =>
    obtain ⟨-, rfl⟩ := Prod.mk.inj (Option.some.inj h)
    conv_lhs => rw [← List.take_append_drop n s, List.filter_append,
      filter_isMark_digits fun c hc => List.all_eq_true.1 hds.2 c hc, List.nil_append]
  · exact nomatch h

theorem marks_of_after? {c : Char} (h : Text.after? [c] s = some r) :
    s.filter isMark = [c].filter isMark ++ r.filter isMark := by
  rw [Text.after?_eq_some_iff.1 h, List.filter_append]

theorem marks_ne_nil_of_suffix (h : r <:+ s) (hr : r.filter isMark ≠ []) : s.filter isMark ≠ [] := by
  obtain ⟨lead, rfl⟩ := h
  rw [List.filter_append]
  exact List.append_ne_nil_of_right_ne_nil _ hr

/-- An offset has a letter or a colon. -/
theorem marks_of_readOffset {o : Int} (h : readOffset s = some o) : s.filter isMark ≠ [] := by
  simp only [readOffset] at h
  split at h
  case isTrue hzulu =>
    rcases hzulu with rfl | rfl <;> decide
  case isFalse =>
    obtain ⟨⟨sign, s₁⟩, hsign, h⟩ := Option.bind_eq_some_iff.1 h
    obtain ⟨⟨hours, s₂⟩, hhours, h⟩ := Option.bind_eq_some_iff.1 h
    obtain ⟨s₃, hcolon, h⟩ := Option.bind_eq_some_iff.1 h
    have hsuffix : s₁ <:+ s := by
      split at hsign
      · obtain ⟨-, rfl⟩ := Prod.mk.inj (Option.some.inj hsign)
        exact List.suffix_cons _ _
      · split at hsign
        · obtain ⟨-, rfl⟩ := Prod.mk.inj (Option.some.inj hsign)
          exact List.suffix_cons _ _
        · exact nomatch hsign
      · exact nomatch hsign
    refine marks_ne_nil_of_suffix hsuffix ?_
    rw [marks_of_readDigits hhours, marks_of_after? hcolon]
    exact List.append_ne_nil_of_left_ne_nil (by decide) _

theorem suffix_of_readFraction (h : readFraction s = some (n, r)) : r <:+ s := by
  unfold readFraction at h
  split at h
  · simp only at h
    split at h
    · exact nomatch h
    · obtain ⟨-, rfl⟩ := Prod.mk.inj (Option.some.inj h)
      exact (List.dropWhile_suffix _).trans (List.suffix_cons _ _)
  · obtain ⟨-, rfl⟩ := Prod.mk.inj (Option.some.inj h)
    exact List.suffix_refl _

/-- The parts of a text in the internet date format. -/
theorem readInternet?_eq_some_iff {t : Instant} : readInternet? s = some t ↔
    ∃ (year month day hour minute second nanos : Nat) (offset : Int) (u : Instant) (c : Char)
      (s₁ s₂ s₃ s₄ s₅ s₆ s₇ : Chars),
      (readDigits 4 s = some (year, '-' :: s₁) ∧ readDigits 2 s₁ = some (month, '-' :: s₂) ∧
        readDigits 2 s₂ = some (day, c :: s₃) ∧ (c = 'T' ∨ c = 't' ∨ c = ' ')) ∧
      (readDigits 2 s₃ = some (hour, ':' :: s₄) ∧ readDigits 2 s₄ = some (minute, ':' :: s₅) ∧
        readDigits 2 s₅ = some (second, s₆) ∧ readFraction s₆ = some (nanos, s₇) ∧ readOffset s₇ = some offset) ∧
      Fields.instant? ⟨⟨year, month, day⟩, hour, minute, second, nanos⟩ = some u ∧
      t = { u with secs := u.secs - offset } := by
  constructor
  · intro h
    unfold readInternet? at h
    obtain ⟨⟨year, r₁⟩, hyear, h⟩ := Option.bind_eq_some_iff.1 h
    obtain ⟨s₁, hhyphen, h⟩ := Option.bind_eq_some_iff.1 h
    obtain ⟨⟨month, r₂⟩, hmonth, h⟩ := Option.bind_eq_some_iff.1 h
    obtain ⟨s₂, hhyphen', h⟩ := Option.bind_eq_some_iff.1 h
    obtain ⟨⟨day, _⟩, hday, h⟩ := Option.bind_eq_some_iff.1 h
    simp only at h
    split at h
    case h_2 => exact nomatch h
    case h_1 c s₃ =>
    split at h
    case isFalse => exact nomatch h
    case isTrue hc =>
    obtain ⟨_, hrest, h⟩ := Option.bind_eq_some_iff.1 h
    obtain rfl := Option.some.inj hrest
    obtain ⟨⟨hour, r₄⟩, hhour, h⟩ := Option.bind_eq_some_iff.1 h
    obtain ⟨s₄, hcolon, h⟩ := Option.bind_eq_some_iff.1 h
    obtain ⟨⟨minute, r₅⟩, hminute, h⟩ := Option.bind_eq_some_iff.1 h
    obtain ⟨s₅, hcolon', h⟩ := Option.bind_eq_some_iff.1 h
    obtain ⟨⟨second, s₆⟩, hsecond, h⟩ := Option.bind_eq_some_iff.1 h
    obtain ⟨⟨nanos, s₇⟩, hfraction, h⟩ := Option.bind_eq_some_iff.1 h
    obtain ⟨offset, hoffset, h⟩ := Option.bind_eq_some_iff.1 h
    obtain ⟨u, hu, hsome⟩ := Option.bind_eq_some_iff.1 h
    obtain rfl : r₁ = '-' :: s₁ := Text.after?_eq_some_iff.1 hhyphen
    obtain rfl : r₂ = '-' :: s₂ := Text.after?_eq_some_iff.1 hhyphen'
    obtain rfl : r₄ = ':' :: s₄ := Text.after?_eq_some_iff.1 hcolon
    obtain rfl : r₅ = ':' :: s₅ := Text.after?_eq_some_iff.1 hcolon'
    exact ⟨year, month, day, hour, minute, second, nanos, offset, u, c, s₁, s₂, _, s₄, s₅, s₆, s₇,
      ⟨hyear, hmonth, hday, hc⟩, ⟨hhour, hminute, hsecond, hfraction, hoffset⟩, hu, (Option.some.inj hsome).symm⟩
  · rintro ⟨year, month, day, hour, minute, second, nanos, offset, u, c, s₁, s₂, s₃, s₄, s₅, s₆, s₇,
      ⟨hyear, hmonth, hday, hc⟩, ⟨hhour, hminute, hsecond, hfraction, hoffset⟩, hu, rfl⟩
    refine Option.bind_eq_some_iff.2 ⟨_, hyear, Option.bind_eq_some_iff.2 ⟨_, rfl, ?_⟩⟩
    refine Option.bind_eq_some_iff.2 ⟨_, hmonth, Option.bind_eq_some_iff.2 ⟨_, rfl, ?_⟩⟩
    refine Option.bind_eq_some_iff.2 ⟨_, hday, ?_⟩
    simp only [if_pos hc]
    refine Option.bind_eq_some_iff.2 ⟨_, rfl, ?_⟩
    refine Option.bind_eq_some_iff.2 ⟨_, hhour, Option.bind_eq_some_iff.2 ⟨_, rfl, ?_⟩⟩
    refine Option.bind_eq_some_iff.2 ⟨_, hminute, Option.bind_eq_some_iff.2 ⟨_, rfl, ?_⟩⟩
    refine Option.bind_eq_some_iff.2 ⟨_, hsecond, Option.bind_eq_some_iff.2 ⟨_, hfraction, ?_⟩⟩
    exact Option.bind_eq_some_iff.2 ⟨_, hoffset, Option.bind_eq_some_iff.2 ⟨_, hu, rfl⟩⟩

/-- A text in the internet date format has two colons and a mark in the offset, and no slash before them. -/
theorem marks_of_readInternet? {t : Instant} (h : readInternet? s = some t) :
    3 ≤ (s.filter isMark).length ∧ (s.filter isMark).head? ≠ some '/' := by
  obtain ⟨_, _, _, _, _, _, _, _, _, c, s₁, s₂, s₃, s₄, s₅, s₆, _, ⟨hyear, hmonth, hday, hc⟩,
    ⟨hhour, hminute, hsecond, hfraction, hoffset⟩, -⟩ := readInternet?_eq_some_iff.1 h
  have hbehind : s₆.filter isMark ≠ [] :=
    marks_ne_nil_of_suffix (suffix_of_readFraction hfraction) (marks_of_readOffset hoffset)
  have hclock : s₃.filter isMark = ':' :: ':' :: s₆.filter isMark := by
    rw [marks_of_readDigits hhour, List.filter_cons_of_pos (by decide), marks_of_readDigits hminute,
      List.filter_cons_of_pos (by decide), marks_of_readDigits hsecond]
  have hmarks : s.filter isMark = [c].filter isMark ++ s₃.filter isMark := by
    rw [marks_of_readDigits hyear, List.filter_cons_of_neg (by decide), marks_of_readDigits hmonth,
      List.filter_cons_of_neg (by decide), marks_of_readDigits hday]
    exact List.filter_append [c] s₃
  have hpos := List.length_pos_iff.2 hbehind
  rw [hmarks, hclock, List.length_append, List.length_cons, List.length_cons]
  refine ⟨by omega, ?_⟩
  rcases hc with rfl | rfl | rfl <;> exact fun heq => absurd (Option.some.inj heq) (by decide)

/-- No layout reads a text in the internet date format. -/
theorem readInternet?_of_readItems {l : List Item} (hl : l ∈ layouts) (h : readItems l f s = some g) :
    readInternet? s = none := by
  have hlayouts : ∀ l ∈ layouts, ¬ (3 ≤ (l.flatMap Item.marks).length ∧ (l.flatMap Item.marks).head? ≠ some '/') := by
    decide
  rw [Option.eq_none_iff_forall_ne_some]
  intro t ht
  have hmarks := marks_of_readInternet? ht
  rw [marks_of_readItems h] at hmarks
  exact hlayouts l hl hmarks

/-- Whole seconds are digits behind a sign or none. -/
theorem isDigit_of_readInt64? {k : Int} (h : readInt64? s = some k) :
    ∀ c ∈ (takeSign s).2, Text.isDigit c = true := by
  rw [readInt64?, readInt?] at h
  simp only at h
  split at h
  case isTrue hds => exact List.all_eq_true.1 hds.2
  case isFalse => cases h

theorem takeSign_cases (s : Chars) : (takeSign s).2 = s ∨ ∃ c, (c = '-' ∨ c = '+') ∧ s = c :: (takeSign s).2 := by
  unfold takeSign
  split
  · exact .inr ⟨_, .inl rfl, rfl⟩
  · exact .inr ⟨_, .inr rfl, rfl⟩
  · exact .inl rfl

/-- Whole seconds are not in the internet date format. -/
theorem readInt64?_of_readInternet? {t : Instant} (h : readInternet? s = some t) : readInt64? s = none := by
  rw [Option.eq_none_iff_forall_ne_some]
  intro k hk
  have hnone := filter_isMark_digits (isDigit_of_readInt64? hk)
  have hmarks : s.filter isMark = [] := by
    obtain heq | ⟨c, hc, heq⟩ := takeSign_cases s
    · rwa [heq] at hnone
    · rw [heq, List.filter_cons_of_neg (by rcases hc with rfl | rfl <;> decide), hnone]
  have hlength := (marks_of_readInternet? h).1
  rw [hmarks] at hlength
  exact absurd hlength (by decide)

theorem suffix_tail_of_readNumber (h : readNumber n s = some (v, r)) : r <:+ s.tail := by
  obtain ⟨ds, rfl, -, hds⟩ := readNumber_eq_some_iff.1 h
  obtain ⟨c, ds', rfl⟩ := List.exists_cons_of_ne_nil hds.ne_nil
  exact ⟨ds', rfl⟩

theorem suffix_tail_of_readYear {y : Int} (h : readYear s = some (y, r)) : r <:+ s.tail := by
  obtain ⟨v, ⟨s', rfl, hread, -⟩ | ⟨s', rfl, hread, -⟩ | ⟨hread, -⟩⟩ := readYear_cases h
  · exact (suffix_tail_of_readNumber hread).trans (List.tail_suffix _)
  · exact (suffix_tail_of_readNumber hread).trans (List.tail_suffix _)
  · exact suffix_tail_of_readNumber hread

theorem tail_dropWhile_suffix (p : Char → Bool) (s : Chars) : (s.dropWhile p).tail <:+ s.tail := by
  cases s with
  | nil => exact List.suffix_refl _
  | cons c s =>
    by_cases hc : p c = true
    · rw [List.dropWhile_cons_of_pos hc]
      exact (List.tail_suffix _).trans (List.dropWhile_suffix p)
    · rw [List.dropWhile_cons_of_neg hc]

/-- No layout reads whole seconds: behind its first number there is a hyphen or a slash. -/
theorem readInt64?_of_readItems {l : List Item} (hl : l ∈ layouts) (h : readItems l f s = some g) :
    readInt64? s = none := by
  have hlayouts : ∀ l ∈ layouts, (∃ time ∈ timesOfDay, l = yearFirst ++ time) ∨
      ∃ time ∈ timesOfDay, l = dayFirst '-' ++ time ∨ l = dayFirst '/' ++ time := by
    decide
  rw [Option.eq_none_iff_forall_ne_some]
  intro k hk
  have htail := tail_dropWhile_suffix Text.isBlank s
  have hdigits : ∀ c ∈ s.tail, Text.isDigit c = true := by
    intro c hc
    refine isDigit_of_readInt64? hk c ?_
    obtain heq | ⟨d, -, heq⟩ := takeSign_cases s
    · rw [heq]
      exact List.mem_of_mem_tail hc
    · rwa [heq, List.tail_cons] at hc
  obtain ⟨time, -, rfl⟩ | ⟨time, -, rfl | rfl⟩ := hlayouts l hl
  · obtain ⟨_, _, _, s₁, _, _, hread, -⟩ := exists_of_readItems_yearFirst h
    have hsuffix := (suffix_tail_of_readYear hread).trans htail
    exact absurd (hdigits '-' (hsuffix.subset List.mem_cons_self)) (by decide)
  · obtain ⟨_, _, _, s₁, _, _, hread, -⟩ := exists_of_readItems_dayFirst h
    have hsuffix := (suffix_tail_of_readNumber hread).trans htail
    exact absurd (hdigits '-' (hsuffix.subset List.mem_cons_self)) (by decide)
  · obtain ⟨_, _, _, s₁, _, _, hread, -⟩ := exists_of_readItems_dayFirst h
    have hsuffix := (suffix_tail_of_readNumber hread).trans htail
    exact absurd (hdigits '/' (hsuffix.subset List.mem_cons_self)) (by decide)

/-! ## Instants -/

/-- The date of an instant is the one that was read. -/
theorem Fields.date_of_instant? {t : Instant} (h : f.instant? = some t) : t.date = f.date := by
  rw [Fields.instant?] at h
  split at h
  case isTrue hvalid =>
    obtain ⟨hdate, hhour, hminute, -⟩ := hvalid
    have hdays : t.days = f.date.toDays := by
      rw [← Option.some.inj h, days]
      simp only
      omega
    rw [Instant.date, hdays, (Calendar.Date.isValid_iff.1 hdate).1.ofDays_toDays]
  · exact nomatch h

theorem read?_of_readInternet? {t : Instant} (h : readInternet? (Text.trimWhile Text.isBlank s) = some t) :
    read? s = some t := by
  rw [read?]
  simp only [readInt64?_of_readInternet? h, h, Option.some_or]

/-- A text with a year from 1000 on stands for what a layout reads: nothing before that layout reads it. -/
theorem read?_of_readLayout? {l : List Item} (hl : l ∈ layouts) {t : Instant}
    (h : readLayout? l (Text.trimWhile Text.isBlank s) = some t) (hyear : 1000 ≤ t.date.year) : read? s = some t := by
  obtain ⟨g, hg, ht⟩ := Option.bind_eq_some_iff.1 h
  rw [Fields.date_of_instant? ht] at hyear
  have hsome : (layouts.findSome? fun l => readLayout? l (Text.trimWhile Text.isBlank s)).isSome = true :=
    List.findSome?_isSome_iff.2 ⟨l, hl, by rw [h]; rfl⟩
  obtain ⟨t', ht'⟩ := Option.isSome_iff_exists.1 hsome
  obtain ⟨l', hl', h'⟩ := List.exists_of_findSome?_eq_some ht'
  obtain ⟨g', hg', -⟩ := Option.bind_eq_some_iff.1 h'
  obtain rfl := eq_of_readItems hl hl' hg hyear hg'
  obtain rfl := Option.some.inj (h.symm.trans h')
  rw [read?]
  simp only [readInt64?_of_readItems hl hg, readInternet?_of_readItems hl hg, Option.none_or, ht']

end ViewBridge.Instant
