import ViewBridge.Number.Rounding
import ViewBridge.Proofs.Number.Whole
/-!
# Powers of ten as doubles

A number is rounded to decimal places by way of a power of ten, which is multiplied together from doubles that are
themselves rounded. Each product adds a relative error of `2^-53` at most, as long as it is finite, so that a finite
power is less than half again as great as the exact one; and beyond `10^308` no power is finite.

Results:
* `value_pattern_le`, `le_value_pattern`: the relative error of rounding.
* `IsFactor.mul`: the bound of a product.
* `floatPower_isFactor`: the bound of a power, by its squarings.
* `tenPower_bounds`: a finite power of ten is at least one, and close to the exact power.
-/
namespace ViewBridge

namespace Binary

/-! ## The relative error -/

/-- The relative error of rounding. -/
def roundoff : ℚ := 1 / 2 ^ 53

theorem roundoff_pos : 0 < roundoff := by
  unfold roundoff
  positivity

theorem half_lastPlace_le {v : ℚ} (hv : 0 < v) (h : -1074 < lastPlace v) : 2 ^ lastPlace v / 2 ≤ v * roundoff := by
  have hle := le_of_lastPlace hv h
  unfold roundoff
  linarith

theorem value_pattern_le {v : ℚ} (hv : 1 ≤ v) : value (pattern v) ≤ v * (1 + roundoff) := by
  have hpos : 0 < v := one_pos.trans_le hv
  have hplace : -52 ≤ lastPlace v := by
    have hone : (2 : ℚ) ^ 52 * 2 ^ (-52 : ℤ) = 1 := by norm_num
    exact le_lastPlace_of_le hpos (hone.trans_le hv)
  have herror := (abs_le.1 (abs_value_pattern_sub_le hpos)).2
  have hhalf := half_lastPlace_le hpos (by omega)
  linarith

/-- Unless it is very small, a number loses less than a quarter. -/
theorem le_value_pattern {v : ℚ} (hv : 2 ^ (-1073 : ℤ) ≤ v) : 3 / 4 * v ≤ value (pattern v) := by
  have hpos : 0 < v := (two_zpow_pos _).trans_le hv
  have herror := (abs_le.1 (abs_value_pattern_sub_le hpos)).1
  have hhalf : 2 ^ lastPlace v / 2 ≤ v / 4 := by
    rcases eq_or_lt_of_le (le_lastPlace v) with heq | hlt
    · have hnext : (2 : ℚ) ^ (-1073 : ℤ) = 2 ^ (-1074 : ℤ) * 2 := by
        rw [← zpow_add_one₀ (by norm_num)]
        rfl
      rw [← heq]
      linarith
    · have hsmall : roundoff ≤ 1 / 4 := by norm_num [roundoff]
      have := mul_le_mul_of_nonneg_left hsmall hpos.le
      linarith [half_lastPlace_le hpos hlt]
  linarith

/-! ## Factors -/

/-- A double that is at least one, and within a bound if it is finite. -/
def IsFactor (x : Float) (bound : ℚ) : Prop :=
  ∃ b, pattern 1 ≤ b ∧ b ≤ infinity ∧ x = ofMagnitude false b ∧ (b < infinity → value b ≤ bound)

theorem one_le_value {b : ℕ} (hb : pattern 1 ≤ b) : 1 ≤ value b :=
  value_one ▸ value_strictMono.monotone hb

theorem isFactor_natCast {n : ℕ} (hpos : 1 ≤ n) (hn : n ≤ 2 ^ 53) : IsFactor (ofMagnitude false (pattern n)) n := by
  have hone : pattern 1 ≤ pattern n := pattern_mono one_pos.le (Nat.one_le_cast.2 hpos)
  exact ⟨_, hone, (pattern_lt_infinity (hn.trans (by decide))).le, rfl, fun _ => (value_pattern_natCast hn).le⟩

/-- The bound of a product. -/
theorem IsFactor.mul {x y : Float} {r s : ℚ} (hx : IsFactor x r) (hy : IsFactor y s) :
    IsFactor (x * y) (r * (s * (1 + roundoff))) := by
  obtain ⟨b, hb, hle, rfl, hr⟩ := hx
  obtain ⟨b', hb', hle', rfl, hs⟩ := hy
  rcases Nat.lt_or_eq_of_le hle with hlt | heq
  · rcases Nat.lt_or_eq_of_le hle' with hlt' | heq'
    · have hv := one_le_value hb
      have hv' := one_le_value hb'
      have hproduct : 1 ≤ value b * value b' := one_le_mul_of_one_le_of_one_le hv hv'
      refine ⟨min infinity (pattern (value b * value b')), ?_, min_le_left _ _, ?_, fun hfinite => ?_⟩
      · exact le_min pattern_one_lt_infinity.le (pattern_mono one_pos.le hproduct)
      · rw [mul_ofMagnitude _ _ hlt hlt']
        rfl
      · rw [min_eq_right (by omega)]
        calc value (pattern (value b * value b')) ≤ value b * value b' * (1 + roundoff) := value_pattern_le hproduct
          _ = value b * (value b' * (1 + roundoff)) := mul_assoc _ _ _
          _ ≤ r * (s * (1 + roundoff)) := by
            have hunit := roundoff_pos
            exact mul_le_mul (hr hlt) (mul_le_mul_of_nonneg_right (hs hlt') (by linarith)) (by positivity)
              (one_pos.le.trans (hv.trans (hr hlt)))
    · refine ⟨infinity, pattern_one_lt_infinity.le, le_refl _, ?_, fun h => absurd h (lt_irrefl _)⟩
      exact mul_infinity _ _ hle hle' (pattern_one_pos.trans_le hb) (pattern_one_pos.trans_le hb') (.inr heq')
  · refine ⟨infinity, pattern_one_lt_infinity.le, le_refl _, ?_, fun h => absurd h (lt_irrefl _)⟩
    exact mul_infinity _ _ hle hle' (pattern_one_pos.trans_le hb) (pattern_one_pos.trans_le hb') (.inl heq)

end Binary

/-! ## Powers -/

open Binary (IsFactor roundoff)

/-- The bound of a power: each squaring doubles the errors, and halves what is left of the exponent. -/
theorem floatPower_isFactor {fuel n : ℕ} (hfuel : n < 2 ^ fuel) {x a : Float} {r s : ℚ} (hx : IsFactor x r)
    (ha : IsFactor a s) : IsFactor (floatPower fuel x a n) (r * (s * (1 + roundoff)) ^ n) := by
  induction fuel generalizing n x a r s with
  | zero =>
    obtain rfl : n = 0 := by omega
    rw [pow_zero, mul_one]
    exact hx
  | succ fuel ih =>
    set t := s * (1 + roundoff) with ht
    -- the factor that is collected now, if the exponent is odd
    have hcollect : IsFactor (if n % 2 = 1 then x * a else x) (r * t ^ (n % 2)) := by
      rcases Nat.mod_two_eq_zero_or_one n with heven | hodd
      · rw [if_neg (by omega), heven, pow_zero, mul_one]
        exact hx
      · rw [if_pos hodd, hodd, pow_one]
        exact hx.mul ha
    rw [floatPower]
    split
    · rename_i hzero
      have hlast : t ^ (n % 2) = t ^ n := by rw [show n % 2 = n by omega]
      rwa [hlast] at hcollect
    · have hpower := ih (n := n / 2) (by omega) hcollect (ha.mul ha)
      have hsplit : t ^ n = t ^ (n % 2) * (t * t) ^ (n / 2) := by
        conv_lhs => rw [← Nat.mod_add_div n 2]
        rw [pow_add, pow_mul, pow_two]
      have hbound : r * t ^ (n % 2) * (s * t * (1 + roundoff)) ^ (n / 2) = r * t ^ n := by
        rw [hsplit, ht]
        ring
      rwa [hbound] at hpower

theorem one_add_roundoff_pow_lt {p : ℕ} (hp : p ≤ 308) : (1 + roundoff) ^ p < 3 / 2 := by
  have hunit := Binary.roundoff_pos
  have hsmall : 1 + roundoff ≤ 1001 / 1000 := by norm_num [roundoff]
  calc (1 + roundoff) ^ p ≤ (1001 / 1000 : ℚ) ^ p := pow_le_pow_left₀ (by linarith) hsmall p
    _ ≤ (1001 / 1000 : ℚ) ^ (154 * 2) := pow_le_pow_right₀ (by norm_num) hp
    _ = ((1001 / 1000 : ℚ) ^ 154) ^ 2 := pow_mul _ _ _
    _ < 3 / 2 := by norm_num

theorem value_infinity_le {p : ℕ} (hp : 309 ≤ p) : Binary.value Binary.infinity ≤ 10 ^ p := by
  have hnat : 2 ^ 1024 ≤ 10 ^ 309 := by decide +kernel
  have hle : (2 : ℚ) ^ 1024 ≤ 10 ^ 309 := by exact_mod_cast hnat
  calc Binary.value Binary.infinity = 2 ^ 1024 := by rw [Binary.value_infinity]; exact zpow_natCast 2 1024
    _ ≤ (10 : ℚ) ^ 309 := hle
    _ ≤ 10 ^ p := pow_le_pow_right₀ (by norm_num) hp

/-- A finite power of ten is at least one, and close to the exact power. -/
theorem tenPower_bounds (p : ℕ) : ∃ f, Binary.pattern 1 ≤ f ∧ f ≤ Binary.infinity ∧
    tenPower p = Binary.ofMagnitude false f ∧ (f < Binary.infinity → Binary.value f < 3 / 2 * 10 ^ p) := by
  have hone : IsFactor 1.0 1 := by
    rw [Binary.one_eq]
    have h := Binary.isFactor_natCast (n := 1) (by decide) (by decide)
    rwa [Nat.cast_one] at h
  have hten : IsFactor 10.0 10 := by
    rw [Binary.ten_eq]
    have h := Binary.isFactor_natCast (n := 10) (by decide) (by decide)
    rwa [Nat.cast_ofNat] at h
  have hfuel : p < 2 ^ (p.log2 + 1) := Nat.lt_log2_self
  obtain ⟨f, hf, hle, hpower, hbound⟩ := floatPower_isFactor hfuel hone hten
  refine ⟨f, hf, hle, ?_, fun hlt => ?_⟩
  · rw [tenPower, if_neg (by omega), Int.natAbs_natCast]
    exact hpower
  · rcases Nat.lt_or_ge 308 p with hp | hp
    · have hvalue := (Binary.value_strictMono hlt).trans_le (value_infinity_le hp)
      have : (0 : ℚ) < 10 ^ p := by positivity
      linarith
    · have h := hbound hlt
      rw [one_mul, mul_pow] at h
      have := mul_lt_mul_of_pos_left (one_add_roundoff_pow_lt hp) (show (0 : ℚ) < 10 ^ p by positivity)
      linarith

end ViewBridge
