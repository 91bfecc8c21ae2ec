import ViewBridge.Proofs.Number.Leading
import ViewBridge.Proofs.Number.Power
/-!
# Numbers with fixed places

A number with a fixed count of decimals is scaled by a power of ten, made whole, scaled back and written, with its
digits in groups of three. What comes out is a decimal number for every finite double as long as the scaled one is
finite; otherwise a word for what is no number is cut up as if it were digits.

Results:
* `grouped_group`: the digits before the point stand in groups of three.
* `fixed_whole`, `fixed_nonzero`: the digits have no needless zero, and are not all zero if there is something to write.
* `roundHalfAway_of_finite`: what a double is rounded to if scaling keeps it finite, and how small that can be.
* `formatNumber_wellFormed`: which doubles are written as decimal numbers, and what stands for the others.
-/
namespace ViewBridge

/-! ## Groups of three -/

/-- Digits in groups of three, counted from the right, with a separator between the groups. -/
def Grouped (sep digits text : Chars) : Prop :=
  ∃ (first : Chars) (groups : List Chars), first ≠ [] ∧ first.length ≤ 3 ∧ (∀ g ∈ groups, g.length = 3) ∧
    digits = first ++ groups.flatten ∧ text = first ++ (groups.map (sep ++ ·)).flatten

theorem length_flatten_of_three {groups : List Chars} (h : ∀ g ∈ groups, g.length = 3) :
    groups.flatten.length = 3 * groups.length := by
  induction groups with
  | nil => rfl
  | cons g groups ih =>
    rw [List.forall_mem_cons] at h
    rw [List.flatten_cons, List.length_append, h.1, ih h.2, List.length_cons]
    omega

theorem grouped_group (sep : Chars) {digits : Chars} (hne : digits ≠ []) : Grouped sep digits (group sep digits) := by
  induction digits with
  | nil => exact absurd rfl hne
  | cons c rest ih =>
    rcases List.eq_nil_or_concat rest with rfl | ⟨_, _, hrest⟩
    · exact ⟨[c], [], List.cons_ne_nil _ _, by simp, by simp, rfl, by simp [group]⟩
    · have hrest : rest ≠ [] := by simp [hrest]
      obtain ⟨first, groups, hfirst, hle, hthree, hdigits, htext⟩ := ih hrest
      have hlength : rest.length = first.length + 3 * groups.length := by
        rw [hdigits, List.length_append, length_flatten_of_three hthree]
      have hpos := List.length_pos_iff.2 hfirst
      rw [group, htext]
      by_cases hmod : rest.length % 3 = 0
      · -- the groups behind are full, so the digit is in one of its own
        rw [if_pos ⟨hmod, hrest⟩]
        refine ⟨[c], first :: groups, List.cons_ne_nil _ _, by simp, ?_, by simp [hdigits], by simp⟩
        exact List.forall_mem_cons.2 ⟨by omega, hthree⟩
      · rw [if_neg fun h => hmod h.1]
        exact ⟨c :: first, groups, List.cons_ne_nil _ _, by rw [List.length_cons]; omega, hthree, by simp [hdigits],
          by simp⟩

/-! ## Digits -/

/-- A natural number above zero starts with another digit than zero. -/
theorem head?_ofNat_ne_zero {n : ℕ} (hn : 0 < n) : ∃ d ds, Text.ofNat n = d :: ds ∧ d ≠ '0' := by
  have hdigit : ∀ d < 10, 0 < d → Nat.digitChar d ≠ '0' := by decide
  induction n using Nat.strongRecOn with
  | ind n ih =>
    by_cases hlt : n < 10
    · exact ⟨n.digitChar, [], Nat.toDigits_of_lt_base hlt, hdigit n hlt hn⟩
    · obtain ⟨d, ds, hds, hd⟩ := ih (n / 10) (by omega) (by omega)
      rw [Text.ofNat] at hds
      exact ⟨d, ds ++ [(n % 10).digitChar], by rw [Text.ofNat, Nat.toDigits_of_base_le (by decide) (by omega), hds]; rfl,
        hd⟩

section
variable (places num den : ℕ)

/-- The number that is written with fixed places, in units of the last place. -/
def scaled : ℕ := Binary.roundDiv .even (num * 10 ^ places) den

/-- The digits of the scaled number, with zeros in front of them so that there is one before the point. -/
def paddedDigits : Chars := Text.padLeft '0' (places + 1) (Text.ofNat (scaled places num den))

theorem fixedPlaces_eq : fixedPlaces places num den =
    ((paddedDigits places num den).take ((paddedDigits places num den).length - places),
      (paddedDigits places num den).drop ((paddedDigits places num den).length - places)) := rfl

theorem fixed_append : (fixedPlaces places num den).1 ++ (fixedPlaces places num den).2 = paddedDigits places num den :=
  List.take_append_drop _ _

theorem length_paddedDigits : (paddedDigits places num den).length =
    max (places + 1) (Text.ofNat (scaled places num den)).length := by
  rw [paddedDigits, Text.padLeft, List.length_append, List.length_replicate]
  omega

theorem isDigit_of_mem_fixed {c : Char} (h : c ∈ (fixedPlaces places num den).1 ++ (fixedPlaces places num den).2) :
    Text.isDigit c = true := by
  rw [fixed_append, paddedDigits, Text.padLeft, List.mem_append] at h
  rcases h with h | h
  · rw [List.eq_of_mem_replicate h]
    rfl
  · exact Shelf.isDigit_of_mem_ofNat h

/-- There are digits before the point, and no zero in front of them unless it is the only one. -/
theorem fixed_whole : (fixedPlaces places num den).1 ≠ [] ∧
    ((fixedPlaces places num den).1 = ['0'] ∨ (fixedPlaces places num den).1.head? ≠ some '0') := by
  have hlength := length_paddedDigits places num den
  have hwhole : (fixedPlaces places num den).1.length = (paddedDigits places num den).length - places := by
    rw [fixedPlaces_eq, List.length_take]
    omega
  have hne : (fixedPlaces places num den).1 ≠ [] := by
    rw [← List.length_pos_iff, hwhole]
    omega
  refine ⟨hne, ?_⟩
  rcases Nat.lt_or_ge (places + 1) (Text.ofNat (scaled places num den)).length with hlt | hge
  · -- nothing was filled in
    refine .inr ?_
    have hpositive : 0 < scaled places num den := by
      by_contra hzero
      rw [show scaled places num den = 0 by omega] at hlt
      change places + 1 < 1 at hlt
      omega
    obtain ⟨d, ds, hds, hd⟩ := head?_ofNat_ne_zero hpositive
    have hpadded : paddedDigits places num den = d :: ds := by
      rw [paddedDigits, Text.padLeft, show places + 1 - (Text.ofNat (scaled places num den)).length = 0 by omega, hds]
      rfl
    rw [fixedPlaces_eq, List.head?_take, hpadded, if_neg (by rw [← hpadded]; omega), List.head?_cons]
    exact fun h => hd (Option.some.inj h)
  · obtain ⟨c, hc⟩ := List.length_eq_one_iff.1 (show (fixedPlaces places num den).1.length = 1 by omega)
    rw [hc]
    by_cases hzero : c = '0'
    · exact .inl (by rw [hzero])
    · exact .inr fun h => hzero (Option.some.inj h)

theorem fixed_nonzero (h : 0 < scaled places num den) :
    ∃ c ∈ (fixedPlaces places num den).1 ++ (fixedPlaces places num den).2, c ≠ '0' := by
  obtain ⟨d, ds, hds, hd⟩ := head?_ofNat_ne_zero h
  refine ⟨d, ?_, hd⟩
  rw [fixed_append, paddedDigits, Text.padLeft, hds]
  exact List.mem_append_right _ List.mem_cons_self

end

/-! ## Rounding to places -/

namespace Binary

/-- A double is a number. -/
def IsFinite (x : Float) : Prop := ∃ neg m q, ofFloat x = .finite neg m q

theorem isFinite_ofMagnitude (neg : Bool) {b : ℕ} (hb : b < infinity) : IsFinite (ofMagnitude neg b) :=
  ⟨_, _, _, ofFloat_ofMagnitude neg hb⟩

theorem not_isFinite_infinity (neg : Bool) : ¬ IsFinite (ofMagnitude neg infinity) := fun ⟨_, _, _, h⟩ => by
  rw [ofFloat_infinity] at h
  cases h

theorem not_isFinite_nan : ¬ IsFinite (toFloat .nan) := fun ⟨_, _, _, h⟩ => by
  rw [ofFloat_nan] at h
  cases h

theorem whole_infinity (way : Whole) (neg : Bool) : whole way (ofMagnitude neg infinity) = ofMagnitude neg infinity := by
  rw [whole, ofFloat_infinity]

theorem whole_nan (way : Whole) : whole way (toFloat .nan) = toFloat .nan := by
  rw [whole, ofFloat_nan]

/-- A finite double made whole is finite and whole, and keeps its sign. -/
theorem whole_halfAway (neg : Bool) {b : ℕ} (hb : b < infinity) :
    ∃ w < infinity, whole .halfAway (ofMagnitude neg b) = ofMagnitude neg w ∧ ∃ k : ℕ, value w = k := by
  have hmantissa := patternMantissa_lt b
  rw [whole, ofFloat_ofMagnitude neg hb]
  simp only
  split
  · set k := wholeMagnitude .halfAway neg (patternMantissa b) (-((patternPlace b : ℤ) - 1074)).toNat with hk
    have hle : k ≤ 2 ^ 128 := by
      have hdiv := Nat.div_le_self (patternMantissa b) (2 ^ (-((patternPlace b : ℤ) - 1074)).toNat)
      have hround : k ≤ patternMantissa b / 2 ^ (-((patternPlace b : ℤ) - 1074)).toNat + 1 := by
        simp only [hk, wholeMagnitude, roundDiv, Nat.pow_eq]
        split <;> [omega; split <;> omega]
      omega
    refine ⟨pattern k, pattern_lt_infinity hle, ?_, exists_value_pattern_natCast k⟩
    rw [nearest_eq neg k Nat.one_pos, Nat.cast_one, div_one, min_eq_right (pattern_lt_infinity hle).le]
  · rename_i hplace
    refine ⟨b, hb, rfl, patternMantissa b * 2 ^ ((patternPlace b : ℤ) - 1074).toNat, ?_⟩
    rw [value, two_zpow_of_nonneg (not_lt.1 hplace)]
    push_cast
    rfl

end Binary

open Binary (IsFinite infinity ofMagnitude pattern value)

section
variable (neg : Bool) {b : ℕ} (hb : b < infinity) (places : ℕ)
include hb

theorem roundHalfAway_eq : roundHalfAway (ofMagnitude neg b) places =
    Binary.whole .halfAway (ofMagnitude neg b * tenPower places) / tenPower places := by
  rw [roundHalfAway, Binary.ofFloat_ofMagnitude neg hb]

/-- If scaling keeps a double finite, it is rounded to a finite double of the same sign, which is zero or above half a
unit of the last place. -/
theorem roundHalfAway_of_finite (hfinite : IsFinite (ofMagnitude neg b * tenPower places)) :
    ∃ r < infinity, roundHalfAway (ofMagnitude neg b) places = ofMagnitude neg r ∧
      (0 < r → 1 / 2 < value r * 10 ^ places) := by
  obtain ⟨f, hf, hle, hpower, hbound⟩ := tenPower_bounds places
  have hfpos := Binary.pattern_one_pos.trans_le hf
  have hfvalue := Binary.one_le_value hf
  rw [hpower] at hfinite
  rw [roundHalfAway_eq neg hb, hpower]
  have hflt : f < infinity := by
    refine Nat.lt_of_le_of_ne hle fun heq => ?_
    rcases Nat.eq_zero_or_pos b with rfl | hpos
    · rw [heq, Binary.zero_mul_infinity] at hfinite
      exact Binary.not_isFinite_nan hfinite
    · rw [Binary.mul_infinity _ _ hb.le hle hpos hfpos (.inr heq)] at hfinite
      exact Binary.not_isFinite_infinity _ hfinite
  rw [Binary.mul_ofMagnitude _ _ hb hflt, Bool.xor_false] at hfinite ⊢
  have hproduct : min infinity (pattern (value b * value f)) < infinity := by
    refine Nat.lt_of_le_of_ne (min_le_left _ _) fun heq => ?_
    rw [heq] at hfinite
    exact Binary.not_isFinite_infinity _ hfinite
  obtain ⟨w, hw, hwhole, k, hk⟩ := Binary.whole_halfAway neg hproduct
  have hwvalue := Binary.value_nonneg w
  have hquotient : pattern (value w / value f) < infinity := by
    refine lt_of_le_of_lt ?_ hw
    conv_rhs => rw [← Binary.pattern_value w]
    exact Binary.pattern_mono (div_nonneg hwvalue (by linarith)) (div_le_self hwvalue hfvalue)
  refine ⟨pattern (value w / value f), hquotient, ?_, fun hpos => ?_⟩
  · rw [hwhole, Binary.div_ofMagnitude _ _ hw hflt hfpos, Bool.xor_false, min_eq_right hquotient.le]
  · -- a whole number that is not zero is one at least, and the reciprocal of the power is not lost
    have hkpos : k ≠ 0 := by
      rintro rfl
      rw [hk, Nat.cast_zero, zero_div] at hpos
      exact absurd hpos (by decide)
    have hone : 1 ≤ value w := by
      rw [hk]
      exact Nat.one_le_cast.2 (Nat.pos_of_ne_zero hkpos)
    have hfpos' : 0 < value f := one_pos.trans_le hfvalue
    have hreciprocal : 1 / value f ≤ value w / value f := div_le_div_of_nonneg_right hone hfpos'.le
    have hlarge : (2 : ℚ) ^ (-1073 : ℤ) ≤ value w / value f := by
      refine le_trans ?_ hreciprocal
      have hftop : value f ≤ 2 ^ (1073 : ℤ) := by
        refine (Binary.value_strictMono hflt).le.trans ?_
        rw [Binary.value_infinity]
        exact zpow_le_zpow_right₀ (by norm_num) (by norm_num)
      rw [zpow_neg, ← one_div]
      exact one_div_le_one_div_of_le hfpos' hftop
    have hkept := Binary.le_value_pattern hlarge
    have hten : (0 : ℚ) < 10 ^ places := by positivity
    have hcompare : 1 / 2 < 3 / 4 * (1 / value f) * 10 ^ places := by
      have := hbound hflt
      rw [mul_one_div, div_mul_eq_mul_div, lt_div_iff₀ hfpos']
      linarith
    calc (1 : ℚ) / 2 < 3 / 4 * (1 / value f) * 10 ^ places := hcompare
      _ ≤ value (pattern (value w / value f)) * 10 ^ places :=
        mul_le_mul_of_nonneg_right (by linarith) hten.le

/-- If scaling makes a double infinite, so is what it is rounded to, or it is no number at all. -/
theorem roundHalfAway_of_not_finite (hinfinite : ¬ IsFinite (ofMagnitude neg b * tenPower places)) :
    roundHalfAway (ofMagnitude neg b) places = ofMagnitude neg infinity ∨
      roundHalfAway (ofMagnitude neg b) places = Binary.toFloat .nan := by
  obtain ⟨f, hf, hle, hpower, -⟩ := tenPower_bounds places
  have hfpos := Binary.pattern_one_pos.trans_le hf
  rw [hpower] at hinfinite
  rw [roundHalfAway_eq neg hb, hpower]
  rcases Nat.lt_or_eq_of_le hle with hflt | heq
  · rw [Binary.mul_ofMagnitude _ _ hb hflt, Bool.xor_false] at hinfinite ⊢
    have hover : min infinity (pattern (value b * value f)) = infinity :=
      le_antisymm (min_le_left _ _) (not_lt.1 fun hlt => hinfinite (Binary.isFinite_ofMagnitude _ hlt))
    rw [hover, Binary.whole_infinity, Binary.infinity_div _ _ hflt hfpos, Bool.xor_false]
    exact .inl rfl
  · refine .inr ?_
    rcases Nat.eq_zero_or_pos b with rfl | hpos
    · rw [heq, Binary.zero_mul_infinity, Binary.whole_nan, Binary.nan_div]
    · rw [Binary.mul_infinity _ _ hb.le hle hpos hfpos (.inr heq), Binary.whole_infinity, heq,
        Binary.infinity_div_infinity]

end

/-! ## Decimal numbers -/

/-- A decimal number with a fixed count of places. -/
structure Fixed (places : ℕ) where
  neg : Bool
  whole : Chars
  fraction : Chars
  whole_ne_nil : whole ≠ []
  leading : whole = ['0'] ∨ whole.head? ≠ some '0'
  length_fraction : fraction.length = places
  digits : ∀ c ∈ whole ++ fraction, Text.isDigit c = true
  nonzero : neg = true → ∃ c ∈ whole ++ fraction, c ≠ '0'

/-- A text is a decimal number with a fixed count of places: a minus sign if it is negative, the digits before the
point in groups of three, and behind the point as many digits as there are places, if there are any. -/
def WellFormed (point thousands : Chars) (places : ℕ) (text : Chars) : Prop :=
  ∃ (d : Fixed places) (grouped : Chars), Grouped thousands d.whole grouped ∧
    text = (if d.neg then ['-'] else []) ++ grouped ++ if places = 0 then [] else point ++ d.fraction

/-- A decimal number starts with a digit, or with a minus sign and a digit. -/
theorem WellFormed.head {point thousands text : Chars} {places : ℕ} (h : WellFormed point thousands places text) :
    ∃ c rest, Text.isDigit c = true ∧ (text = c :: rest ∨ text = '-' :: c :: rest) := by
  obtain ⟨d, -, ⟨first, groups, hfirst, -, -, hwhole, rfl⟩, rfl⟩ := h
  obtain ⟨c, rest, rfl⟩ := List.exists_cons_of_ne_nil hfirst
  have hdigit : Text.isDigit c = true := d.digits c (by simp [hwhole])
  cases d.neg
  · exact ⟨c, _, hdigit, .inl rfl⟩
  · exact ⟨c, _, hdigit, .inr rfl⟩

theorem not_wellFormed_nan (point thousands rest : Chars) (places : ℕ) :
    ¬ WellFormed point thousands places ('N' :: rest) := fun h => by
  obtain ⟨c, _, hdigit, h | h⟩ := h.head
  · rw [← (List.cons.inj h).1] at hdigit
    exact absurd hdigit (by decide)
  · exact absurd (List.cons.inj h).1 (by decide)

theorem not_wellFormed_infinity (point thousands rest : Chars) (places : ℕ) (neg : Bool) :
    ¬ WellFormed point thousands places ((if neg then ['-'] else []) ++ 'i' :: rest) := fun h => by
  obtain ⟨c, _, hdigit, h | h⟩ := h.head <;> cases neg
  · rw [← (List.cons.inj h).1] at hdigit
    exact absurd hdigit (by decide)
  · rw [← (List.cons.inj h).1] at hdigit
    exact absurd hdigit (by decide)
  · exact absurd (List.cons.inj h).1 (by decide)
  · rw [← (List.cons.inj (List.cons.inj h).2).1] at hdigit
    exact absurd hdigit (by decide)

/-- The digits of a finite double. -/
theorem fixedMagnitude_ofMagnitude (neg : Bool) {b : ℕ} (hb : b < infinity) (places : ℕ) :
    ∃ num den, fixedMagnitude (ofMagnitude neg b) places = fixedPlaces places num den ∧
      scaled places num den = Binary.roundEven (value b * 10 ^ places) := by
  refine ⟨_, _, by rw [fixedMagnitude, Binary.ofFloat_ofMagnitude neg hb], ?_⟩
  have hquotient : value b * 10 ^ places =
      ((Binary.patternMantissa b * Nat.pow 2 ((Binary.patternPlace b : ℤ) - 1074).toNat * 10 ^ places : ℕ) : ℚ) /
        (Nat.pow 2 (-((Binary.patternPlace b : ℤ) - 1074)).toNat : ℕ) := by
    rw [Binary.value_eq_div, Nat.pow_eq, Nat.pow_eq]
    push_cast
    ring
  have hden : 0 < Nat.pow 2 (-((Binary.patternPlace b : ℤ) - 1074)).toNat := Nat.pow_pos (by decide)
  rw [hquotient, ← Binary.roundDiv_even _ hden]
  rfl

/-- What a finite double that is rounded already is written as is a decimal number. -/
theorem wellFormed_rounded (neg : Bool) {r : ℕ} (hr : r < infinity) {places : ℕ}
    (hsmall : 0 < r → 1 / 2 < value r * 10 ^ places) (point thousands : Chars) :
    WellFormed point thousands places ((if ofMagnitude neg r < 0.0 then ['-'] else []) ++
      group thousands (fixedMagnitude (ofMagnitude neg r) places).1 ++
        if places = 0 then [] else point ++ (fixedMagnitude (ofMagnitude neg r) places).2) := by
  obtain ⟨num, den, hfixed, hscaled⟩ := fixedMagnitude_ofMagnitude neg hr places
  obtain ⟨hne, hleading⟩ := fixed_whole places num den
  rw [hfixed]
  let d : Fixed places :=
    { neg := decide (ofMagnitude neg r < 0.0)
      whole := (fixedPlaces places num den).1
      fraction := (fixedPlaces places num den).2
      whole_ne_nil := hne
      leading := hleading
      length_fraction := fixed_length places num den
      digits := fun c => isDigit_of_mem_fixed places num den
      nonzero := fun hneg => by
        have hpos := ((Binary.lt_zero_iff neg hr.le).1 (of_decide_eq_true hneg)).2
        have hnonneg : 0 ≤ value r * 10 ^ places := mul_nonneg (Binary.value_nonneg r) (by positivity)
        have hround := (abs_le.1 (Binary.abs_roundEven_sub_le hnonneg)).1
        have hscaled' : (0 : ℚ) < Binary.roundEven (value r * 10 ^ places) := by linarith [hsmall hpos]
        exact fixed_nonzero places num den (hscaled ▸ Nat.cast_pos.1 hscaled') }
  refine ⟨d, _, grouped_group thousands hne, ?_⟩
  simp only [d, decide_eq_true_eq]

/-- No places are always few enough. -/
theorem isFinite_mul_tenPower_zero (neg : Bool) {b : ℕ} (hb : b < infinity) :
    IsFinite (ofMagnitude neg b * tenPower (0 : ℕ)) := by
  rw [Nat.cast_zero, Binary.mul_tenPower_zero neg hb]
  exact Binary.isFinite_ofMagnitude neg hb

/-- What is written when scaling makes a double infinite. -/
theorem formatNumber_of_not_finite (neg : Bool) {b : ℕ} (hb : b < infinity) {places : ℕ}
    (hinfinite : ¬ IsFinite (ofMagnitude neg b * tenPower places)) (point thousands : Chars) :
    0 < places ∧ ∃ word ∈ ["NaN", "inf", "-inf"],
      formatNumber (ofMagnitude neg b) places point thousands = word.toList ++ point ∧
        ¬ WellFormed point thousands places (word.toList ++ point) := by
  have hplaces : places ≠ 0 := by
    rintro rfl
    exact hinfinite (isFinite_mul_tenPower_zero neg hb)
  refine ⟨Nat.pos_of_ne_zero hplaces, ?_⟩
  rcases roundHalfAway_of_not_finite neg hb places hinfinite with hround | hround
  · have hsign : ofMagnitude neg infinity < 0.0 ↔ neg = true :=
      (Binary.lt_zero_iff neg (le_refl _)).trans (and_iff_left (by decide))
    have htext : formatNumber (ofMagnitude neg b) places point thousands =
        (if neg then ['-'] else []) ++ "inf".toList ++ point := by
      simp only [formatNumber, hround, fixedMagnitude, Binary.ofFloat_infinity, hsign, if_neg hplaces, List.append_nil]
      rfl
    have hnot := not_wellFormed_infinity point thousands ("nf".toList ++ point) places neg
    cases neg
    · exact ⟨"inf", by simp, htext, hnot⟩
    · exact ⟨"-inf", by simp, htext, hnot⟩
  · refine ⟨"NaN", by simp, ?_, not_wellFormed_nan point thousands ("aN".toList ++ point) places⟩
    simp only [formatNumber, hround, fixedMagnitude, Binary.ofFloat_nan, if_neg Binary.nan_lt_zero, if_neg hplaces,
      List.append_nil]
    rfl

/-- A finite double is written as a decimal number with the places that are asked for exactly if scaling keeps it
finite; otherwise a word stands before the point, and nothing behind it. -/
theorem formatNumber_wellFormed {x : Float} (hx : IsFinite x) (places : ℕ) (point thousands : Chars) :
    (WellFormed point thousands places (formatNumber x places point thousands) ↔ IsFinite (x * tenPower places)) ∧
    (¬ IsFinite (x * tenPower places) →
      0 < places ∧ ∃ word ∈ ["NaN", "inf", "-inf"], formatNumber x places point thousands = word.toList ++ point) := by
  obtain ⟨neg, m, q, hparts⟩ := hx
  obtain ⟨b, hb, rfl, -⟩ := Binary.exists_eq_ofMagnitude hparts
  refine ⟨⟨fun hformed => ?_, fun hfinite => ?_⟩, fun hinfinite => ?_⟩
  · by_contra hinfinite
    obtain ⟨-, word, -, htext, hnot⟩ := formatNumber_of_not_finite neg hb hinfinite point thousands
    exact hnot (htext ▸ hformed)
  · obtain ⟨r, hr, hround, hsmall⟩ := roundHalfAway_of_finite neg hb places hfinite
    rw [formatNumber, hround]
    exact wellFormed_rounded neg hr hsmall point thousands
  · obtain ⟨hpos, word, hword, htext, -⟩ := formatNumber_of_not_finite neg hb hinfinite point thousands
    exact ⟨hpos, word, hword, htext⟩

/-- A zero with more places than the powers of ten reach. -/
theorem formatNumber_wellFormed_zero :
    IsFinite 0.0 ∧ formatNumber 0.0 309 ['.'] [','] = "NaN.".toList ∧
      ¬ WellFormed ['.'] [','] 309 (formatNumber 0.0 309 ['.'] [',']) := by
  have hzero : IsFinite 0.0 := ⟨false, 0, -1074, by decide +kernel⟩
  have hpower : Binary.ofFloat (0.0 * tenPower (309 : ℕ)) = .nan := by decide +kernel
  have hinfinite : ¬ IsFinite (0.0 * tenPower (309 : ℕ)) := fun ⟨_, _, _, h⟩ => by
    rw [hpower] at h
    cases h
  obtain ⟨hiff, -⟩ := formatNumber_wellFormed hzero 309 ['.'] [',']
  exact ⟨hzero, by decide +kernel, mt hiff.1 hinfinite⟩

end ViewBridge
