import Mathlib.Algebra.Order.Field.Rat
import Mathlib.Data.Int.Log
import Mathlib.Data.Rat.Floor
import Mathlib.Data.Rat.Lemmas
import Mathlib.Tactic.FieldSimp
import Mathlib.Tactic.Linarith
import Mathlib.Tactic.NormNum
import Mathlib.Tactic.Positivity
import Mathlib.Tactic.Ring
import ViewBridge.Number.Binary
/-!
# Bit patterns as magnitudes

The bit pattern of a double, its sign apart, is a natural number, and greater patterns are greater doubles. So what
rounding to a double does is said of patterns: each has a value, each rational that is not negative has a nearest
pattern, and the two are inverse where both speak. Patterns do not end; the one that stands for infinity is cut off
where doubles are made of them.

Results:
* `value_strictMono`: greater patterns have greater values.
* `pattern_value`: the pattern of a pattern's value is that pattern.
* `pattern_mono`: greater rationals have greater patterns, or the same.
* `abs_value_pattern_sub_le`: rounding is off by half a unit in the last place at most.
* `value_pattern_nearest`: no pattern is nearer.
-/
namespace ViewBridge.Binary

/-! ## Rounding to a natural number -/

/-- The natural number nearest to a rational that is not negative; of two, the even one. -/
def roundEven (x : ℚ) : ℕ := roundDiv .even x.num.toNat x.den

theorem roundDiv_mul (tie : Tie) (num den : ℕ) {k : ℕ} (hk : 0 < k) :
    roundDiv tie (num * k) (den * k) = roundDiv tie num den := by
  have hrest : 2 * (num * k % (den * k)) = 2 * (num % den) * k := by rw [Nat.mul_mod_mul_right, Nat.mul_assoc]
  simp only [roundDiv, Nat.mul_div_mul_right _ _ hk, hrest, Nat.mul_lt_mul_right hk]

/-- A quotient is rounded as the rational that it is. -/
theorem roundDiv_even (num : ℕ) {den : ℕ} (hden : 0 < den) : roundDiv .even num den = roundEven (num / den) := by
  obtain ⟨k, hnum, hden'⟩ := Rat.exists_eq_mul_div_num_and_eq_mul_div_den (num : ℤ) (d := den) (by omega)
  simp only [Int.cast_natCast] at hnum hden'
  set x : ℚ := (num : ℚ) / den with hx
  have hxden := x.den_pos
  have hxnum : 0 ≤ x.num := Rat.num_nonneg.2 (by positivity)
  have hk : 0 < k := by
    by_contra hk
    have := mul_nonpos_of_nonpos_of_nonneg (not_lt.1 hk) (Int.natCast_nonneg x.den)
    omega
  lift k to ℕ using hk.le
  lift x.num to ℕ using hxnum with n hn
  have hnum' : num = n * k := by exact_mod_cast hnum.trans (mul_comm _ _)
  have hden'' : den = x.den * k := by exact_mod_cast hden'.trans (mul_comm _ _)
  rw [roundEven, ← hn, Int.toNat_natCast, ← roundDiv_mul .even n x.den (Int.natCast_pos.1 hk), ← hnum', ← hden'']

/-- Rounding a quotient is off by half a unit at most. -/
theorem abs_roundDiv_sub_le (tie : Tie) (num : ℕ) {den : ℕ} (hden : 0 < den) :
    |(roundDiv tie num den : ℚ) - num / den| ≤ 1 / 2 := by
  have hdiv := Nat.div_add_mod num den
  have hmod := Nat.mod_lt num hden
  have hbounds : 2 * num ≤ 2 * (den * roundDiv tie num den) + den ∧
      2 * (den * roundDiv tie num den) ≤ 2 * num + den := by
    have hcases : (roundDiv tie num den = num / den ∧ 2 * (num % den) ≤ den) ∨
        (roundDiv tie num den = num / den + 1 ∧ den ≤ 2 * (num % den)) := by
      rcases lt_trichotomy (2 * (num % den)) den with hlt | heq | hgt
      · exact .inl ⟨if_pos hlt, hlt.le⟩
      · cases tie with
        | away => exact .inr ⟨by simp [roundDiv, heq], heq.ge⟩
        | even =>
          rcases Nat.mod_two_eq_zero_or_one (num / den) with heven | hodd
          · exact .inl ⟨by simp [roundDiv, heq, heven], heq.le⟩
          · exact .inr ⟨by simp [roundDiv, heq, hodd], heq.ge⟩
      · exact .inr ⟨by simp [roundDiv, hgt, hgt.not_gt], hgt.le⟩
    rcases hcases with ⟨heq, hle⟩ | ⟨heq, hle⟩
    · rw [heq]
      omega
    · rw [heq, Nat.mul_add, Nat.mul_one]
      omega
  have hden' : (0 : ℚ) < den := Nat.cast_pos.2 hden
  have hlow : (2 * num : ℚ) ≤ 2 * (den * roundDiv tie num den) + den := by exact_mod_cast hbounds.1
  have hhigh : (2 * (den * roundDiv tie num den) : ℚ) ≤ 2 * num + den := by exact_mod_cast hbounds.2
  have hsub : (roundDiv tie num den : ℚ) - num / den = (2 * (den * roundDiv tie num den) - 2 * num) / (2 * den) := by
    field_simp
  rw [hsub, abs_div, abs_of_pos (by positivity : (0 : ℚ) < 2 * den), div_le_iff₀ (by positivity), abs_le]
  constructor <;> linarith

theorem num_toNat_div_den {x : ℚ} (hx : 0 ≤ x) : (x.num.toNat : ℚ) / x.den = x := by
  have hnum : ((x.num.toNat : ℤ) : ℚ) = x.num := by rw [Int.toNat_of_nonneg (Rat.num_nonneg.2 hx)]
  rw [← Int.cast_natCast, hnum]
  exact Rat.num_div_den x

theorem abs_roundEven_sub_le {x : ℚ} (hx : 0 ≤ x) : |(roundEven x : ℚ) - x| ≤ 1 / 2 := by
  have h := abs_roundDiv_sub_le .even x.num.toNat x.den_pos
  rwa [num_toNat_div_den hx] at h

/-- What is nearer than half a unit is what a rational is rounded to. -/
theorem roundEven_eq_of_abs_lt {x : ℚ} (hx : 0 ≤ x) {n : ℕ} (hn : |(n : ℚ) - x| < 1 / 2) : roundEven x = n := by
  have h := abs_le.1 (abs_roundEven_sub_le hx)
  have hn := abs_lt.1 hn
  have hlt : (roundEven x : ℚ) < n + 1 := by linarith
  have hgt : (n : ℚ) < roundEven x + 1 := by linarith
  have hlt : roundEven x < n + 1 := by exact_mod_cast hlt
  have hgt : n < roundEven x + 1 := by exact_mod_cast hgt
  omega

theorem roundEven_natCast (n : ℕ) : roundEven n = n :=
  roundEven_eq_of_abs_lt (Nat.cast_nonneg n) (by rw [sub_self, abs_zero]; norm_num)

theorem roundEven_half (n : ℕ) : roundEven (n + 1 / 2) = n + n % 2 := by
  have hquot : ((2 * n + 1 : ℕ) : ℚ) / (2 : ℕ) = n + 1 / 2 := by
    push_cast
    ring
  rw [← hquot, ← roundDiv_even _ (by decide), roundDiv_half_even _ _ (by omega)]
  omega

theorem roundEven_mono {x y : ℚ} (hx : 0 ≤ x) (hxy : x ≤ y) : roundEven x ≤ roundEven y := by
  by_contra hlt
  have hle : (roundEven y : ℚ) + 1 ≤ roundEven x := by exact_mod_cast not_le.1 hlt
  have hxe := abs_le.1 (abs_roundEven_sub_le hx)
  have hye := abs_le.1 (abs_roundEven_sub_le (hx.trans hxy))
  -- both are off by half a unit, in opposite directions, so they are the same
  have heq : x = y := le_antisymm hxy (by linarith)
  rw [heq] at hlt
  exact hlt (le_refl _)

/-- No natural number is nearer. -/
theorem roundEven_nearest {x : ℚ} (hx : 0 ≤ x) (n : ℕ) : |(roundEven x : ℚ) - x| ≤ |(n : ℚ) - x| := by
  rcases lt_or_ge |(n : ℚ) - x| (1 / 2) with hlt | hge
  · rw [roundEven_eq_of_abs_lt hx hlt]
  · exact (abs_roundEven_sub_le hx).trans hge

/-! ## The exponent of a magnitude -/

/-- The exponent of the last place of the doubles near a positive rational. -/
def lastPlace (v : ℚ) : ℤ := max (-1074) (Int.log 2 v - 52)

theorem lastPlace_mono {v w : ℚ} (hv : 0 < v) (hvw : v ≤ w) : lastPlace v ≤ lastPlace w :=
  max_le_max (le_refl _) (Int.sub_le_sub_right (Int.log_mono_right hv hvw) 52)

theorem le_lastPlace (v : ℚ) : -1074 ≤ lastPlace v := le_max_left _ _

theorem two_zpow_pos (q : ℤ) : (0 : ℚ) < 2 ^ q := zpow_pos (by norm_num) q

theorem two_zpow_of_nonneg {q : ℤ} (hq : 0 ≤ q) : (2 : ℚ) ^ q = 2 ^ q.toNat := by
  rw [← zpow_natCast, Int.toNat_of_nonneg hq]

/-- A power of two stands over or under the line by the sign of its exponent. -/
theorem two_zpow_eq_div (q : ℤ) : (2 : ℚ) ^ q = 2 ^ q.toNat / 2 ^ (-q).toNat := by
  rw [← zpow_natCast, ← zpow_natCast, ← zpow_sub₀ (by norm_num)]
  congr 1
  omega

theorem lt_of_lastPlace (v : ℚ) : v < 2 ^ 53 * 2 ^ lastPlace v := by
  have hlt := Int.lt_zpow_succ_log_self (b := 2) (by decide) v
  have hle : Int.log 2 v + 1 ≤ 53 + lastPlace v := by
    have := le_max_right (-1074) (Int.log 2 v - 52)
    unfold lastPlace
    omega
  calc v < 2 ^ (Int.log 2 v + 1) := by exact_mod_cast hlt
    _ ≤ 2 ^ (53 + lastPlace v) := zpow_le_zpow_right₀ (by norm_num) hle
    _ = 2 ^ 53 * 2 ^ lastPlace v := by rw [zpow_add₀ (by norm_num)]; rfl

theorem le_of_lastPlace {v : ℚ} (hv : 0 < v) (h : -1074 < lastPlace v) : 2 ^ 52 * 2 ^ lastPlace v ≤ v := by
  have hle := Int.zpow_log_le_self (b := 2) (by decide) hv
  have heq : lastPlace v = Int.log 2 v - 52 := by
    unfold lastPlace at h ⊢
    omega
  calc (2 : ℚ) ^ 52 * 2 ^ lastPlace v = 2 ^ (52 + lastPlace v) := by rw [zpow_add₀ (by norm_num)]; rfl
    _ = 2 ^ Int.log 2 v := by rw [heq]; congr 1; omega
    _ ≤ v := by exact_mod_cast hle

theorem le_lastPlace_of_le {v : ℚ} (hv : 0 < v) {q : ℤ} (h : 2 ^ 52 * 2 ^ q ≤ v) : q ≤ lastPlace v := by
  have hlog : 52 + q ≤ Int.log 2 v := by
    rw [← Int.zpow_le_iff_le_log (by decide) hv, zpow_add₀ (by norm_num)]
    exact_mod_cast h
  unfold lastPlace
  omega

/-- The last place is the only one whose unit is contained as often as a mantissa allows. -/
theorem lastPlace_eq {v : ℚ} (hv : 0 < v) {q : ℤ} (hq : -1074 ≤ q) (hlt : v < 2 ^ 53 * 2 ^ q)
    (hle : -1074 < q → 2 ^ 52 * 2 ^ q ≤ v) : lastPlace v = q := by
  have hlog : Int.log 2 v < 53 + q := by
    rw [← Int.lt_zpow_iff_log_lt (by decide) hv, zpow_add₀ (by norm_num)]
    exact_mod_cast hlt
  rcases eq_or_lt_of_le hq with rfl | hq'
  · unfold lastPlace
    omega
  · have hge := le_lastPlace_of_le hv (hle hq')
    unfold lastPlace at hge ⊢
    omega

/-- How often the unit in the last place goes into a magnitude, rounded, is a mantissa, or the power of two behind
them. -/
theorem roundEven_le {v : ℚ} (hv : 0 < v) : roundEven (v / 2 ^ lastPlace v) ≤ 2 ^ 53 := by
  have hle : v / 2 ^ lastPlace v ≤ ((2 ^ 53 : ℕ) : ℚ) := by
    rw [div_le_iff₀ (two_zpow_pos _)]
    exact_mod_cast (lt_of_lastPlace v).le
  calc roundEven (v / 2 ^ lastPlace v) ≤ roundEven ((2 ^ 53 : ℕ) : ℚ) :=
        roundEven_mono (div_nonneg hv.le (two_zpow_pos _).le) hle
    _ = 2 ^ 53 := roundEven_natCast _

theorem le_roundEven {v : ℚ} (hv : 0 < v) (h : -1074 < lastPlace v) : 2 ^ 52 ≤ roundEven (v / 2 ^ lastPlace v) := by
  have hle : ((2 ^ 52 : ℕ) : ℚ) ≤ v / 2 ^ lastPlace v := by
    rw [le_div_iff₀ (two_zpow_pos _)]
    exact_mod_cast le_of_lastPlace hv h
  calc 2 ^ 52 = roundEven ((2 ^ 52 : ℕ) : ℚ) := (roundEven_natCast _).symm
    _ ≤ roundEven (v / 2 ^ lastPlace v) := roundEven_mono (Nat.cast_nonneg _) hle

/-! ## Patterns and their values -/

/-- The pattern of the double nearest to a rational that is not negative. -/
def pattern (v : ℚ) : ℕ :=
  if v = 0 then 0 else (lastPlace v + 1074).toNat * 2 ^ 52 + roundEven (v / 2 ^ lastPlace v)

/-- How many steps above the least one the last place of a pattern is. -/
def patternPlace (b : ℕ) : ℕ := b / 2 ^ 52 - 1

/-- The mantissa of a pattern. -/
def patternMantissa (b : ℕ) : ℕ := b - patternPlace b * 2 ^ 52

/-- The magnitude that a pattern stands for. -/
def value (b : ℕ) : ℚ := patternMantissa b * 2 ^ ((patternPlace b : ℤ) - 1074)

/-- The magnitude as a quotient of natural numbers. -/
theorem value_eq_div (b : ℕ) : value b =
    ((patternMantissa b * 2 ^ ((patternPlace b : ℤ) - 1074).toNat : ℕ) : ℚ) /
      (2 ^ (-((patternPlace b : ℤ) - 1074)).toNat : ℕ) := by
  rw [value, two_zpow_eq_div]
  push_cast
  exact (mul_div_assoc _ _ _).symm

theorem patternMantissa_lt (b : ℕ) : patternMantissa b < 2 ^ 53 := by
  unfold patternMantissa patternPlace
  omega

theorem patternMantissa_or (b : ℕ) : 2 ^ 52 ≤ patternMantissa b ∨ patternPlace b = 0 := by
  unfold patternMantissa patternPlace
  omega

theorem patternPlace_mul_add (b : ℕ) : patternPlace b * 2 ^ 52 + patternMantissa b = b := by
  unfold patternMantissa patternPlace
  omega

/-- The value of a place with a mantissa in it, or with the power of two behind them. -/
theorem value_mul_add {e m : ℕ} (hm : m ≤ 2 ^ 53) (h : 2 ^ 52 ≤ m ∨ e = 0) :
    value (e * 2 ^ 52 + m) = m * 2 ^ ((e : ℤ) - 1074) := by
  rcases Nat.lt_or_eq_of_le hm with hlt | rfl
  · have hplace : patternPlace (e * 2 ^ 52 + m) = e := by
      unfold patternPlace
      omega
    have hmantissa : patternMantissa (e * 2 ^ 52 + m) = m := by
      rw [patternMantissa, hplace]
      omega
    rw [value, hplace, hmantissa]
  · have hplace : patternPlace (e * 2 ^ 52 + 2 ^ 53) = e + 1 := by
      unfold patternPlace
      omega
    have hmantissa : patternMantissa (e * 2 ^ 52 + 2 ^ 53) = 2 ^ 52 := by
      rw [patternMantissa, hplace]
      omega
    have hexponent : ((e + 1 : ℕ) : ℤ) - 1074 = ((e : ℤ) - 1074) + 1 := by
      push_cast
      ring
    rw [value, hplace, hmantissa, hexponent, zpow_add_one₀ (by norm_num)]
    push_cast
    ring

theorem value_succ (b : ℕ) : value (b + 1) = value b + 2 ^ ((patternPlace b : ℤ) - 1074) := by
  have hlt := patternMantissa_lt b
  have hb := patternPlace_mul_add b
  conv_lhs => rw [← hb, Nat.add_assoc]
  rw [value_mul_add hlt ((patternMantissa_or b).imp_left Nat.le_succ_of_le), value]
  push_cast
  ring

/-- Greater patterns have greater values. -/
theorem value_strictMono : StrictMono value :=
  strictMono_nat_of_lt_succ fun b => by
    rw [value_succ]
    exact lt_add_of_pos_right _ (two_zpow_pos _)

theorem value_zero : value 0 = 0 := by simp [value, patternMantissa]

theorem value_pos {b : ℕ} (hb : 0 < b) : 0 < value b := value_zero ▸ value_strictMono hb

theorem value_nonneg (b : ℕ) : 0 ≤ value b := value_zero ▸ value_strictMono.monotone (Nat.zero_le b)

/-- What the double nearest to a rational is. -/
theorem value_pattern {v : ℚ} (hv : 0 < v) :
    value (pattern v) = roundEven (v / 2 ^ lastPlace v) * 2 ^ lastPlace v := by
  have hplace := le_lastPlace v
  have hcast : ((lastPlace v + 1074).toNat : ℤ) - 1074 = lastPlace v := by omega
  rw [pattern, if_neg hv.ne', value_mul_add (roundEven_le hv), hcast]
  rcases eq_or_lt_of_le hplace with heq | hlt
  · exact .inr (by omega)
  · exact .inl (le_roundEven hv hlt)

theorem patternMantissa_pos {b : ℕ} (hb : 0 < b) : 0 < patternMantissa b := by
  unfold patternMantissa patternPlace
  omega

theorem lastPlace_value {b : ℕ} (hb : 0 < b) : lastPlace (value b) = (patternPlace b : ℤ) - 1074 := by
  have hmantissa : (patternMantissa b : ℚ) < 2 ^ 53 := by exact_mod_cast patternMantissa_lt b
  refine lastPlace_eq (value_pos hb) (by omega) ?_ fun hlt => ?_
  · exact mul_lt_mul_of_pos_right hmantissa (two_zpow_pos _)
  · have hle : (2 : ℚ) ^ 52 ≤ patternMantissa b := by exact_mod_cast (patternMantissa_or b).resolve_right (by omega)
    exact mul_le_mul_of_nonneg_right hle (two_zpow_pos _).le

/-- The pattern of a pattern's value is that pattern. -/
theorem pattern_value (b : ℕ) : pattern (value b) = b := by
  rcases Nat.eq_zero_or_pos b with rfl | hb
  · rw [pattern, value_zero, if_pos rfl]
  · have hpos := value_pos hb
    have hquot : value b / 2 ^ ((patternPlace b : ℤ) - 1074) = patternMantissa b := by
      rw [value, mul_div_assoc, div_self (two_zpow_pos _).ne', mul_one]
    have hcast : ((patternPlace b : ℤ) - 1074 + 1074).toNat = patternPlace b := by omega
    rw [pattern, if_neg hpos.ne', lastPlace_value hb, hquot, roundEven_natCast, hcast, patternPlace_mul_add]

/-- Greater rationals have greater patterns, or the same. -/
theorem pattern_mono {v w : ℚ} (hv : 0 ≤ v) (hvw : v ≤ w) : pattern v ≤ pattern w := by
  rcases eq_or_lt_of_le hv with rfl | hv
  · rw [pattern, if_pos rfl]
    exact Nat.zero_le _
  · have hw := hv.trans_le hvw
    rw [pattern, if_neg hv.ne', pattern, if_neg hw.ne']
    have hplace := le_lastPlace v
    rcases eq_or_lt_of_le (lastPlace_mono hv hvw) with heq | hlt
    · have hround : roundEven (v / 2 ^ lastPlace v) ≤ roundEven (w / 2 ^ lastPlace w) := by
        rw [heq]
        exact roundEven_mono (div_nonneg hv.le (two_zpow_pos _).le) (div_le_div_of_nonneg_right hvw (two_zpow_pos _).le)
      exact Nat.add_le_add (by rw [heq]) hround
    · have hv' := roundEven_le hv
      have hw' := le_roundEven hw (by omega)
      -- a step of the last place makes up for the mantissa
      have hstep : (lastPlace v + 1074).toNat + 1 ≤ (lastPlace w + 1074).toNat := by omega
      have := Nat.mul_le_mul_right (2 ^ 52) hstep
      omega

/-! ## How near a pattern is -/

/-- Rounding is off by half a unit in the last place at most. -/
theorem abs_value_pattern_sub_le {v : ℚ} (hv : 0 < v) : |value (pattern v) - v| ≤ 2 ^ lastPlace v / 2 := by
  have hunit := two_zpow_pos (lastPlace v)
  have hround := abs_roundEven_sub_le (div_nonneg hv.le hunit.le)
  have hsub : value (pattern v) - v =
      (roundEven (v / 2 ^ lastPlace v) - v / 2 ^ lastPlace v) * 2 ^ lastPlace v := by
    rw [value_pattern hv, sub_mul, div_mul_cancel₀ _ hunit.ne']
  rw [hsub, abs_mul, abs_of_pos hunit]
  linarith [mul_le_mul_of_nonneg_right hround hunit.le]

/-- A pattern's value is a multiple of a place, or below the mantissas that the place has. -/
theorem value_grid (b : ℕ) {q : ℤ} (hq : -1074 ≤ q) :
    (∃ n : ℕ, value b = n * 2 ^ q) ∨ (-1074 < q ∧ value b < 2 ^ 52 * 2 ^ q) := by
  rcases le_or_gt q ((patternPlace b : ℤ) - 1074) with hle | hlt
  · refine .inl ⟨patternMantissa b * 2 ^ ((patternPlace b : ℤ) - 1074 - q).toNat, ?_⟩
    have hexponent : (patternPlace b : ℤ) - 1074 = (((patternPlace b : ℤ) - 1074 - q).toNat : ℤ) + q := by omega
    rw [value, hexponent, zpow_add₀ (by norm_num), zpow_natCast, ← hexponent]
    push_cast
    ring
  · have hmantissa : (patternMantissa b : ℚ) < 2 ^ 53 := by exact_mod_cast patternMantissa_lt b
    refine .inr ⟨by omega, ?_⟩
    calc value b < 2 ^ 53 * 2 ^ ((patternPlace b : ℤ) - 1074) := mul_lt_mul_of_pos_right hmantissa (two_zpow_pos _)
      _ = 2 ^ 52 * 2 ^ ((patternPlace b : ℤ) - 1074 + 1) := by rw [zpow_add_one₀ (by norm_num)]; ring
      _ ≤ 2 ^ 52 * 2 ^ q :=
        mul_le_mul_of_nonneg_left (zpow_le_zpow_right₀ (by norm_num) (by omega)) (by norm_num)

/-- No pattern is nearer. -/
theorem value_pattern_nearest {v : ℚ} (hv : 0 ≤ v) (b : ℕ) : |value (pattern v) - v| ≤ |value b - v| := by
  rcases eq_or_lt_of_le hv with rfl | hv
  · rw [pattern, if_pos rfl, value_zero, sub_self, abs_zero]
    exact abs_nonneg _
  · have hunit := two_zpow_pos (lastPlace v)
    have hquot (n : ℕ) : (n : ℚ) * 2 ^ lastPlace v - v = (n - v / 2 ^ lastPlace v) * 2 ^ lastPlace v := by
      rw [sub_mul, div_mul_cancel₀ _ hunit.ne']
    -- on the grid of the last place, rounding is what it is for natural numbers
    have hgrid (n : ℕ) : |value (pattern v) - v| ≤ |(n : ℚ) * 2 ^ lastPlace v - v| := by
      rw [value_pattern hv, hquot, hquot, abs_mul, abs_mul]
      exact mul_le_mul_of_nonneg_right (roundEven_nearest (div_nonneg hv.le hunit.le) n) (abs_nonneg _)
    rcases value_grid b (le_lastPlace v) with ⟨n, hn⟩ | ⟨hplace, hlt⟩
    · rw [hn]
      exact hgrid n
    · -- below the grid the least mantissa comes first
      have hle := le_of_lastPlace hv hplace
      refine (hgrid (2 ^ 52)).trans ?_
      rw [abs_of_nonpos (by push_cast; linarith), abs_of_nonpos (by linarith)]
      push_cast
      linarith

/-- A magnitude that is a multiple of its last place is a double. -/
theorem value_pattern_of_dvd {v : ℚ} (hv : 0 < v) {n : ℕ} (hn : v = n * 2 ^ lastPlace v) : value (pattern v) = v := by
  have hquot : v / 2 ^ lastPlace v = n := by rw [div_eq_iff (two_zpow_pos _).ne', ← hn]
  rw [value_pattern hv, hquot, roundEven_natCast, ← hn]

/-- A mantissa in a place of the doubles is a double. -/
theorem value_pattern_exact {m : ℕ} {q : ℤ} (hm : m ≤ 2 ^ 53) (hq : -1074 ≤ q) :
    value (pattern (m * 2 ^ q)) = m * 2 ^ q := by
  rcases Nat.eq_zero_or_pos m with rfl | hpos
  · rw [Nat.cast_zero, zero_mul, pattern, if_pos rfl, value_zero]
  · have hv : (0 : ℚ) < m * 2 ^ q := mul_pos (Nat.cast_pos.2 hpos) (two_zpow_pos q)
    have hm' : (m : ℚ) ≤ 2 ^ 53 := by exact_mod_cast hm
    rcases le_or_gt (lastPlace (m * 2 ^ q)) q with hle | hlt
    · refine value_pattern_of_dvd hv (n := m * 2 ^ (q - lastPlace (m * 2 ^ q)).toNat) ?_
      have hexponent : q = ((q - lastPlace (m * 2 ^ q)).toNat : ℤ) + lastPlace (m * 2 ^ q) := by omega
      conv_lhs => rw [hexponent, zpow_add₀ (by norm_num), zpow_natCast]
      push_cast
      ring
    · -- then the mantissa is the power of two behind them, which is the least one of the next place
      have hbelow : (2 : ℚ) ^ 52 * 2 ^ (q + 1) ≤ 2 ^ 52 * 2 ^ lastPlace (m * 2 ^ q) :=
        mul_le_mul_of_nonneg_left (zpow_le_zpow_right₀ (by norm_num) hlt) (by norm_num)
      have hle := hbelow.trans (le_of_lastPlace hv (by omega))
      have habove : (m : ℚ) * 2 ^ q ≤ 2 ^ 53 * 2 ^ q := mul_le_mul_of_nonneg_right hm' (two_zpow_pos q).le
      have hnext : (2 : ℚ) ^ 52 * 2 ^ (q + 1) = 2 ^ 53 * 2 ^ q := by
        rw [zpow_add_one₀ (by norm_num)]
        ring
      have heq : (m : ℚ) * 2 ^ q = (2 ^ 52 : ℕ) * 2 ^ (q + 1) := by
        push_cast
        linarith
      have hplace : lastPlace (m * 2 ^ q) = q + 1 := by
        refine lastPlace_eq hv (by omega) ?_ fun _ => ?_
        · have := two_zpow_pos (q + 1)
          rw [heq]
          push_cast
          linarith
        · rw [heq]
          push_cast
          exact le_refl _
      exact value_pattern_of_dvd hv (n := 2 ^ 52) (by rw [hplace, heq])

end ViewBridge.Binary
