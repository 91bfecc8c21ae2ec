import ViewBridge.Proofs.Call.Modifier
import ViewBridge.Proofs.Number.Machine
/-!
# Whole numbers as doubles

The helpers that make whole numbers take an integer to a double first, and back in the end if that is whole and
below `10^15`. Doubles hold all integers up to `2^53`, and every double of an integer is whole, so nothing is lost
where the way back is taken; from `10^15` on the result stays a double, the nearest one.

Results:
* `exists_value_pattern_natCast`, `value_pattern_natCast`: a natural number becomes a whole double, and up to `2^53`
  the number itself.
* `whole_ofMagnitude`: a whole double is not changed by making it whole.
* `isNearest_ofInt`: the double of an integer is the nearest one.
* `call_whole_integer`: what the helpers make of integers.
-/
namespace ViewBridge

namespace Binary

/-! ## Whole magnitudes -/

theorem value_pattern_natCast {n : ℕ} (hn : n ≤ 2 ^ 53) : value (pattern n) = n := by
  have h := value_pattern_exact hn (q := 0) (by decide)
  rwa [zpow_zero, mul_one] at h

theorem value_pattern_two_pow (n : ℕ) : value (pattern ((2 ^ n : ℕ) : ℚ)) = (2 ^ n : ℕ) := by
  have h := value_pattern_exact (m := 1) (q := n) (by decide) (by omega)
  rw [Nat.cast_one, one_mul, zpow_natCast] at h
  exact_mod_cast h

/-- A natural number becomes a whole double. -/
theorem exists_value_pattern_natCast (n : ℕ) : ∃ k : ℕ, value (pattern n) = k := by
  rcases Nat.lt_or_ge (2 ^ 53) n with hlt | hle
  · have hn : (0 : ℚ) < n := Nat.cast_pos.2 (by omega)
    have hplace : 0 ≤ lastPlace n := by
      refine le_lastPlace_of_le hn ?_
      rw [zpow_zero, mul_one]
      exact_mod_cast (show 2 ^ 52 ≤ n by omega)
    refine ⟨roundEven (n / 2 ^ lastPlace n) * 2 ^ (lastPlace n).toNat, ?_⟩
    rw [value_pattern hn, Nat.cast_mul, Nat.cast_pow, Nat.cast_ofNat, two_zpow_of_nonneg hplace]
  · exact ⟨n, value_pattern_natCast hle⟩

theorem value_pattern_natCast_mono {m n : ℕ} (h : m ≤ n) : value (pattern m) ≤ value (pattern n) :=
  value_strictMono.monotone (pattern_mono (Nat.cast_nonneg m) (Nat.cast_le.2 h))

theorem value_infinity : value infinity = 2 ^ (1024 : ℤ) := by
  have hinf : infinity = 2046 * 2 ^ 52 + 2 ^ 52 := rfl
  rw [hinf, value_mul_add (by decide) (.inl (le_refl _)), Nat.cast_pow, Nat.cast_ofNat, ← zpow_natCast,
    ← zpow_add₀ (by norm_num)]
  rfl

/-- The integers of 128 bits are finite doubles. -/
theorem pattern_lt_infinity {n : ℕ} (hn : n ≤ 2 ^ 128) : pattern n < infinity := by
  rw [← value_strictMono.lt_iff_lt, value_infinity]
  refine (value_pattern_natCast_mono hn).trans_lt ?_
  rw [value_pattern_two_pow, Nat.cast_pow, Nat.cast_ofNat, ← zpow_natCast]
  exact zpow_lt_zpow_right₀ (by norm_num) (by norm_num)

/-! ## Whole doubles -/

section
variable {b k : ℕ} (hk : value b = k)
include hk

/-- The mantissa of a whole double, as its place tells to read it. -/
theorem patternMantissa_scaled : patternMantissa b * 2 ^ ((patternPlace b : ℤ) - 1074).toNat =
    k * 2 ^ (-((patternPlace b : ℤ) - 1074)).toNat := by
  have hunit : ((2 ^ (-((patternPlace b : ℤ) - 1074)).toNat : ℕ) : ℚ) ≠ 0 := by positivity
  rw [value_eq_div, div_eq_iff hunit] at hk
  exact_mod_cast hk

variable (neg : Bool) (hb : b < infinity)
include hb

theorem toInt?_ofMagnitude : toInt? (ofFloat (ofMagnitude neg b)) = some (if neg then -(k : ℤ) else k) := by
  have hunit : 0 < 2 ^ (-((patternPlace b : ℤ) - 1074)).toNat := Nat.pow_pos (by decide)
  simp only [ofFloat_ofMagnitude neg hb, toInt?, Nat.pow_eq, patternMantissa_scaled hk, Nat.mul_mod_left, if_true,
    Nat.mul_div_cancel k hunit]

theorem truncate?_ofMagnitude : truncate? (ofFloat (ofMagnitude neg b)) = some (if neg then -(k : ℤ) else k) := by
  have hunit : 0 < 2 ^ (-((patternPlace b : ℤ) - 1074)).toNat := Nat.pow_pos (by decide)
  simp only [ofFloat_ofMagnitude neg hb, truncate?, Nat.pow_eq, patternMantissa_scaled hk, Nat.mul_div_cancel k hunit]

end

theorem wholeMagnitude_mul (way : Whole) (neg : Bool) (k n : ℕ) : wholeMagnitude way neg (k * 2 ^ n) n = k := by
  have hunit : 0 < 2 ^ n := Nat.pow_pos (by decide)
  have hbelow : k * 2 ^ n / 2 ^ n = k := Nat.mul_div_cancel _ hunit
  have habove : (k * 2 ^ n + (2 ^ n - 1)) / 2 ^ n = k := by
    rw [Nat.add_comm, Nat.add_mul_div_right _ _ hunit, Nat.div_eq_of_lt (by omega), Nat.zero_add]
  simp only [wholeMagnitude, Nat.pow_eq]
  cases way <;> simp [hbelow, habove, roundDiv]

/-- A whole double is not changed by making it whole. -/
theorem whole_ofMagnitude (way : Whole) (neg : Bool) {b k : ℕ} (hb : b < infinity) (hk : value b = k) :
    whole way (ofMagnitude neg b) = ofMagnitude neg b := by
  rw [whole, ofFloat_ofMagnitude neg hb]
  refine (ite_eq_right_iff.2 fun hq => ?_)
  have hmantissa := patternMantissa_scaled hk
  rw [show ((patternPlace b : ℤ) - 1074).toNat = 0 by omega, pow_zero, mul_one] at hmantissa
  rw [hmantissa, wholeMagnitude_mul, nearest_eq neg k Nat.one_pos, Nat.cast_one, div_one, ← hk, pattern_value,
    min_eq_right hb.le]

theorem abs_ofMagnitude (neg : Bool) {b : ℕ} (hb : b ≤ infinity) : abs (ofMagnitude neg b) = ofMagnitude false b := by
  have hbits := toBits_ofMagnitude neg hb
  rw [abs, hbits, ofMagnitude]
  unfold infinity at hb
  congr 2
  cases neg <;> simp only [signBits, Nat.pow_eq, Bool.false_eq_true, if_false, if_true] <;> omega

/-! ## One -/

theorem value_one : value (pattern 1) = 1 := by
  have h := value_pattern_natCast (n := 1) (by decide)
  rwa [Nat.cast_one] at h

theorem pattern_one_pos : 0 < pattern 1 := by
  rw [← value_strictMono.lt_iff_lt, value_one, value_zero]
  exact one_pos

theorem pattern_one_lt_infinity : pattern 1 < infinity := by
  have h := pattern_lt_infinity (n := 1) (by decide)
  rwa [Nat.cast_one] at h

theorem tenPower_zero : tenPower 0 = ofMagnitude false (pattern 1) := one_eq

section
variable (neg : Bool) {b : ℕ} (hb : b < infinity)
include hb

theorem mul_tenPower_zero : ofMagnitude neg b * tenPower 0 = ofMagnitude neg b := by
  rw [tenPower_zero, mul_ofMagnitude _ _ hb pattern_one_lt_infinity, value_one, mul_one, pattern_value,
    min_eq_right hb.le, Bool.xor_false]

theorem div_tenPower_zero : ofMagnitude neg b / tenPower 0 = ofMagnitude neg b := by
  rw [tenPower_zero, div_ofMagnitude _ _ hb pattern_one_lt_infinity pattern_one_pos, value_one, div_one, pattern_value,
    min_eq_right hb.le, Bool.xor_false]

/-- Without places, rounding changes a whole double as little as making it whole. -/
theorem roundHalfAway_zero {k : ℕ} (hk : value b = k) : roundHalfAway (ofMagnitude neg b) 0 = ofMagnitude neg b := by
  rw [roundHalfAway, ofFloat_ofMagnitude neg hb]
  simp only [mul_tenPower_zero neg hb, whole_ofMagnitude .halfAway neg hb hk, div_tenPower_zero neg hb]

end

/-! ## The nearest double -/

/-- The number that a finite double is. -/
def toRat? (x : Float) : Option ℚ :=
  match ofFloat x with
  | .finite neg m q => some ((if neg then -1 else 1) * (m * 2 ^ q))
  | _ => none

/-- A finite double is a number to which no other double is nearer. -/
def IsNearest (x : Float) (r : ℚ) : Prop :=
  ∃ v, toRat? x = some v ∧ ∀ y w, toRat? y = some w → |v - r| ≤ |w - r|

theorem toRat?_ofMagnitude (neg : Bool) {b : ℕ} (hb : b < infinity) :
    toRat? (ofMagnitude neg b) = some ((if neg then -1 else 1) * value b) := by
  rw [toRat?, ofFloat_ofMagnitude neg hb]
  rfl

theorem exists_of_toRat? {x : Float} {v : ℚ} (h : toRat? x = some v) : ∃ (neg : Bool) (b : ℕ),
    v = (if neg then -1 else 1) * value b := by
  unfold toRat? at h
  split at h
  · rename_i neg m q hx
    obtain ⟨b, -, -, hvalue⟩ := exists_eq_ofMagnitude hx
    exact ⟨neg, b, by rw [hvalue]; exact (Option.some.inj h).symm⟩
  · cases h

theorem isNearest_ofMagnitude (neg : Bool) {r : ℚ} (hr : 0 ≤ r) (hlt : pattern r < infinity) :
    IsNearest (ofMagnitude neg (pattern r)) ((if neg then -1 else 1) * r) := by
  refine ⟨_, toRat?_ofMagnitude neg hlt, fun y w hy => ?_⟩
  obtain ⟨neg', b, rfl⟩ := exists_of_toRat? hy
  have hnear := value_pattern_nearest hr b
  -- a number of the other sign is further away than the one of this sign
  have hother : |value b - r| ≤ |value b + r| := by
    have hb := value_nonneg b
    rw [abs_of_nonneg (add_nonneg hb hr), abs_le]
    constructor <;> linarith
  have hneg (x y : ℚ) : |-1 * x - -1 * y| = |x - y| := by rw [← mul_sub, abs_mul, abs_neg, abs_one, one_mul]
  have hneg' (x y : ℚ) : |-1 * x - y| = |x + y| := by rw [← abs_neg]; congr 1; ring
  have hneg'' (x y : ℚ) : |x - -1 * y| = |x + y| := by congr 1; ring
  cases neg <;> cases neg' <;> simp only [if_true, if_false, Bool.false_eq_true, one_mul, hneg, hneg', hneg'']
  · exact hnear
  · exact hnear.trans hother
  · exact hnear.trans hother
  · exact hnear

/-! ## Integers -/

section
variable {n : ℤ} (hn : n.natAbs ≤ 2 ^ 128)
include hn

theorem ofInt_eq_ofMagnitude : ofInt n = ofMagnitude (n < 0) (pattern n.natAbs) := by
  rw [ofInt, nearest_eq _ _ Nat.one_pos, Nat.cast_one, div_one, min_eq_right (pattern_lt_infinity hn).le]

theorem whole_ofInt (way : Whole) : whole way (ofInt n) = ofInt n := by
  obtain ⟨k, hk⟩ := exists_value_pattern_natCast n.natAbs
  rw [ofInt_eq_ofMagnitude hn, whole_ofMagnitude way _ (pattern_lt_infinity hn) hk]

theorem roundHalfAway_ofInt : roundHalfAway (ofInt n) 0 = ofInt n := by
  obtain ⟨k, hk⟩ := exists_value_pattern_natCast n.natAbs
  rw [ofInt_eq_ofMagnitude hn, roundHalfAway_zero _ (pattern_lt_infinity hn) hk]

theorem abs_ofInt : abs (ofInt n) = ofInt |n| := by
  have habs : |n|.natAbs = n.natAbs := Int.natAbs_abs n
  have hsign : ¬ |n| < 0 := not_lt.2 (abs_nonneg n)
  rw [ofInt_eq_ofMagnitude hn, ofInt_eq_ofMagnitude (habs ▸ hn), abs_ofMagnitude _ (pattern_lt_infinity hn).le, habs,
    decide_eq_false hsign]

/-- The double of an integer is the nearest one. -/
theorem isNearest_ofInt : IsNearest (ofInt n) n := by
  have h := isNearest_ofMagnitude (n < 0) (Nat.cast_nonneg n.natAbs) (pattern_lt_infinity hn)
  have hsigned : (if decide (n < 0) = true then -1 else 1) * (n.natAbs : ℚ) = n := by
    rw [Nat.cast_natAbs]
    rcases lt_or_ge n 0 with hlt | hge
    · rw [if_pos (decide_eq_true hlt), abs_of_neg hlt]
      push_cast
      ring
    · rw [if_neg (by simpa using hge), abs_of_nonneg hge, one_mul]
  rwa [hsigned, ← ofInt_eq_ofMagnitude hn] at h

end

end Binary

/-! ## Numbers of integers -/

namespace Value

/-- What the double of an integer is as a number. -/
theorem number_ofInt {n : ℤ} (hn : n.natAbs ≤ 2 ^ 128) :
    number (Binary.ofInt n) = if n.natAbs < 10 ^ 15 then .int n else .float (Binary.ofInt n) := by
  obtain ⟨k, hk⟩ := Binary.exists_value_pattern_natCast n.natAbs
  have hwhole : Binary.toInt? (Binary.ofFloat (Binary.ofInt n)) = some (if n < 0 then -(k : ℤ) else k) := by
    rw [Binary.ofInt_eq_ofMagnitude hn, Binary.toInt?_ofMagnitude hk _ (Binary.pattern_lt_infinity hn)]
    simp only [decide_eq_true_eq]
  split
  · rename_i hlt
    -- so small a number is the double itself
    have hexact := Binary.value_pattern_natCast (n := n.natAbs) (by omega)
    have hkn : k = n.natAbs := by exact_mod_cast hk.symm.trans hexact
    refine number_of_isWhole ⟨hwhole.trans (congrArg some ?_), hlt⟩
    split <;> omega
  · rename_i hge
    have hmono := Binary.value_pattern_natCast_mono (not_lt.1 hge)
    rw [Binary.value_pattern_natCast (by decide), hk] at hmono
    have hkge : 10 ^ 15 ≤ k := by exact_mod_cast hmono
    refine number_of_not_isWhole fun m hm => ?_
    have hmk := Option.some.inj (hwhole.symm.trans hm.1)
    have hlt := hm.2
    split at hmk <;> omega

/-- A value is what numbers keep of an integer: the integer itself below `10^15`, which is printed as its digits, and
from there on the nearest double, which is not. -/
def Keeps (v : Value) (n : ℤ) : Prop :=
  if n.natAbs < 10 ^ 15 then v = .int n ∧ v.print = Text.ofInt n
  else ∃ x, v = .float x ∧ Binary.IsNearest x n ∧ v.print ≠ Text.ofInt n

theorem keeps_number_ofInt {n : ℤ} (hn : n.natAbs ≤ 2 ^ 128) : Keeps (number (Binary.ofInt n)) n := by
  rw [Keeps, number_ofInt hn]
  split
  · exact ⟨rfl, rfl⟩
  · exact ⟨_, rfl, Binary.isNearest_ofInt hn, FloatStyle.render_printed_ne_ofInt _ n⟩

end Value

namespace Helper

variable (c : HelperContext)

theorem call_abs (v : Value) : call c abs [v] = .ok (.number (Binary.abs v.toFloat)) := rfl

theorem call_floor (v : Value) : call c floor [v] = .ok (.number (Binary.whole .floor v.toFloat)) := rfl

theorem call_ceil (v : Value) : call c ceil [v] = .ok (.number (Binary.whole .ceil v.toFloat)) := rfl

theorem call_round (v : Value) : call c round [v] = .ok (.number (roundHalfAway v.toFloat 0)) := rfl

theorem natAbs_le_of_int64 {n : ℤ} (hlo : int64Min ≤ n) (hhi : n ≤ int64Max) : n.natAbs ≤ 2 ^ 128 := by
  have hmin : int64Min = -(2 ^ 63) := rfl
  have hmax : int64Max = 2 ^ 63 - 1 := rfl
  omega

/-- An integer of 64 bits is kept by the helpers that make whole numbers, and its magnitude by the one that takes
magnitudes. -/
theorem call_whole_integer {n : ℤ} (hlo : int64Min ≤ n) (hhi : n ≤ int64Max) :
    (∃ v, call c abs [.int n] = .ok v ∧ v.Keeps |n|) ∧ (∃ v, call c floor [.int n] = .ok v ∧ v.Keeps n) ∧
    (∃ v, call c ceil [.int n] = .ok v ∧ v.Keeps n) ∧ ∃ v, call c round [.int n] = .ok v ∧ v.Keeps n := by
  have hn := natAbs_le_of_int64 hlo hhi
  have hkeeps := Value.keeps_number_ofInt hn
  have habs : |n|.natAbs ≤ 2 ^ 128 := (Int.natAbs_abs n).symm ▸ hn
  refine ⟨⟨_, call_abs c _, ?_⟩, ⟨_, call_floor c _, ?_⟩, ⟨_, call_ceil c _, ?_⟩, ⟨_, call_round c _, ?_⟩⟩
  · rw [Value.toFloat, Binary.abs_ofInt hn]
    exact Value.keeps_number_ofInt habs
  · rwa [Value.toFloat, Binary.whole_ofInt hn]
  · rwa [Value.toFloat, Binary.whole_ofInt hn]
  · rwa [Value.toFloat, Binary.roundHalfAway_ofInt hn]

/-- The greatest magnitude that is kept as an integer. -/
theorem call_whole_integer_limit :
    let c : HelperContext := { constants := [], extension := [], now := ⟨0, 0⟩ }
    (int64Min ≤ -999999999999999 ∧ -999999999999999 ≤ int64Max) ∧
    ∃ v, call c abs [.int (-999999999999999)] = .ok v ∧ v = .int 999999999999999 ∧
      v.print = "999999999999999".toList := by
  intro c
  obtain ⟨⟨v, hcall, hkeeps⟩, -⟩ := call_whole_integer c (n := -999999999999999) (by decide) (by decide)
  rw [Value.Keeps, if_pos (by decide)] at hkeeps
  exact ⟨⟨by decide, by decide⟩, v, hcall, hkeeps⟩

/-- From `10^15` on the helpers do not give integers. -/
theorem not_forall_call_integer :
    ¬ ∀ (c : HelperContext) (n : ℤ), int64Min < n → n ≤ int64Max →
      call c abs [.int n] = .ok (.int |n|) ∧ call c floor [.int n] = .ok (.int n) ∧
      call c ceil [.int n] = .ok (.int n) ∧ call c round [.int n] = .ok (.int n) := by
  intro h
  obtain ⟨-, hfloor, -⟩ := h { constants := [], extension := [], now := ⟨0, 0⟩ } 1000000000000000 (by decide) (by decide)
  rw [call_floor, Value.toFloat, Binary.whole_ofInt (by decide), Value.number_ofInt (by decide),
    if_neg (by decide)] at hfloor
  cases hfloor

end Helper

end ViewBridge
