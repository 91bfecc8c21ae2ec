import Mathlib
import ViewBridge.Proofs.Number.Pattern
/-!
# Doubles of the machine

The arithmetic of doubles takes bit patterns apart, computes with mantissas that carry two more bits, rounds, and puts
the result together again. Here each of these steps is related to the patterns and their values: a finite double is a
sign and a pattern, and a product or a quotient is the pattern of the exact one, cut off at infinity.

Results:
* `exists_eq_ofMagnitude`: a finite double is a sign and a pattern.
* `ofFloat_ofMagnitude`: the parts of a sign and a pattern.
* `roundedMantissa_eq`: the two bits are enough to round.
* `mul_ofMagnitude`, `div_ofMagnitude`: the arithmetic of doubles by that of their values.
* `nearest_eq`: so is the conversion of a quotient.
* `lt_zero_iff`: which doubles are negative.
-/
namespace ViewBridge.Binary

open Float.Model (Format totalExponent UnpackedFloat)
open Float.Model.UnpackedFloat

/-- The pattern of infinity. -/
def infinity : ℕ := 2047 * 2 ^ 52

/-- The sign of the machine. -/
def sign (neg : Bool) : Sign := if neg then .negative else .positive

/-! ## Fixed doubles -/

theorem zero_eq : (0.0 : Float) = ofMagnitude false 0 := by decide +kernel

theorem one_eq : (1.0 : Float) = ofMagnitude false (pattern 1) := by decide +kernel

theorem ten_eq : (10.0 : Float) = ofMagnitude false (pattern 10) := by decide +kernel

theorem ofFloat_infinity (neg : Bool) : ofFloat (ofMagnitude neg infinity) = .infinite neg := by
  cases neg <;> decide +kernel

theorem ofFloat_nan : ofFloat (toFloat .nan) = .nan := by decide +kernel

theorem ofModel_pack_zero (neg : Bool) : Float.ofModel (.pack (.zero (sign neg))) = ofMagnitude neg 0 := by
  cases neg <;> decide +kernel

theorem ofModel_pack_nan : Float.ofModel (.pack .notANumber) = toFloat .nan := by decide +kernel

/-! ## Bits -/

section
variable (b : BitVec 64)

theorem unpackMantissa_toNat : (@unpackMantissa Format.binary64 b).toNat = b.toNat % 2 ^ 52 := by
  rw [unpackMantissa_def, BitVec.extractLsb'_toNat]
  rfl

theorem unpackExponent_toNat : (@unpackExponent Format.binary64 b).toNat = b.toNat / 2 ^ 52 % 2 ^ 11 := by
  rw [unpackExponent_def, BitVec.extractLsb'_toNat, Nat.shiftRight_eq_div_pow]

theorem unpackSign_toNat : (@unpackSign Format.binary64 b).toNat = b.toNat / 2 ^ 63 := by
  rw [unpackSign_def, BitVec.extractLsb'_toNat, Nat.shiftRight_eq_div_pow]
  have hb : b.toNat < 2 ^ 64 := b.isLt
  change b.toNat / 2 ^ 63 % 2 ^ 1 = _
  omega

end

theorem sign_mul (a b : Bool) : sign a * sign b = sign (a ^^ b) := by cases a <;> cases b <;> rfl

theorem sign_div (a b : Bool) : sign a / sign b = sign (a ^^ b) := by cases a <;> cases b <;> rfl

/-- The bits of a sign. -/
def signBits (neg : Bool) : ℕ := if neg then 2 ^ 63 else 0

theorem packComponents_toNat (neg : Bool) (e : BitVec 11) (m : BitVec 52) :
    (packComponents Format.binary64 (sign neg) e m).toNat = signBits neg + e.toNat * 2 ^ 52 + m.toNat := by
  have hm := m.isLt
  have he := e.isLt
  have hlow : e.toNat <<< 52 ||| m.toNat = e.toNat * 2 ^ 52 + m.toNat := by
    rw [Nat.shiftLeft_eq, Nat.mul_comm, Nat.two_pow_add_eq_or_of_lt hm]
  change ((sign neg).toBitVec ++ e ++ m).toNat = _
  rw [BitVec.toNat_append, BitVec.toNat_append]
  cases neg
  · change ((0 <<< 11 ||| e.toNat) <<< 52 ||| m.toNat) = _
    rw [Nat.zero_shiftLeft, Nat.zero_or, hlow, signBits, if_neg Bool.false_ne_true, Nat.zero_add]
  · change ((1 <<< 11 ||| e.toNat) <<< 52 ||| m.toNat) = _
    rw [Nat.shiftLeft_or_distrib, Nat.or_assoc, hlow, ← Nat.shiftLeft_add, Nat.one_shiftLeft, signBits, if_pos rfl,
      ← Nat.mul_one (2 ^ (11 + 52)), ← Nat.two_pow_add_eq_or_of_lt (by omega)]
    omega

theorem sign_ofBitVec (b : BitVec 1) : Sign.ofBitVec b = sign (b.toNat == 1) := by
  have hb : b.toNat < 2 := b.isLt
  rcases Nat.lt_or_ge b.toNat 1 with h | h
  · obtain rfl : b = 0#1 := BitVec.eq_of_toNat_eq (by change b.toNat = 0; omega)
    rfl
  · obtain rfl : b = 1#1 := BitVec.eq_of_toNat_eq (by change b.toNat = 1; omega)
    rfl

/-- A double that is not undefined keeps its bits. -/
theorem toBits_ofMagnitude (neg : Bool) {b : ℕ} (hb : b ≤ infinity) :
    (ofMagnitude neg b).toBits.toNat = signBits neg + b := by
  unfold infinity at hb
  have hbits : (UInt64.ofNat (b + if neg then Nat.pow 2 63 else 0)).toNat = signBits neg + b := by
    rw [UInt64.toNat_ofNat', signBits]
    cases neg <;> simp only [Bool.false_eq_true, if_false, if_true, Nat.pow_eq] <;> omega
  set w := UInt64.ofNat (b + if neg then Nat.pow 2 63 else 0) with hw
  have hnan : @isNaNBits Format.binary64 w.toBitVec = false := by
    rw [isNaNBits, decide_eq_false_iff_not]
    rintro ⟨he, hm⟩
    have he := congrArg BitVec.toNat he
    have hm : (@unpackMantissa Format.binary64 w.toBitVec).toNat ≠ 0 := fun h => hm (BitVec.eq_of_toNat_eq h)
    rw [unpackExponent_toNat, UInt64.toNat_toBitVec, hbits] at he
    rw [unpackMantissa_toNat, UInt64.toNat_toBitVec, hbits] at hm
    change _ = 2047 at he
    cases neg <;> simp only [signBits, Bool.false_eq_true, if_false, if_true] at he hm <;> omega
  have hpack := @pack_unpack Format.binary64 w.toBitVec (by decide)
  rw [hnan, if_neg Bool.false_ne_true] at hpack
  change (UnpackedFloat.pack Format.binary64 (unpack Format.binary64 w.toBitVec)).toNat = _
  rw [hpack, UInt64.toNat_toBitVec, hbits]

/-- The parts of a sign and a pattern. -/
theorem ofFloat_ofMagnitude (neg : Bool) {b : ℕ} (hb : b < infinity) :
    ofFloat (ofMagnitude neg b) = .finite neg (patternMantissa b) ((patternPlace b : ℤ) - 1074) := by
  have hbits := toBits_ofMagnitude neg hb.le
  unfold infinity at hb
  have hsign : (signBits neg + b) / 2 ^ 63 = if neg then 1 else 0 := by
    cases neg <;> simp only [signBits, Bool.false_eq_true, if_false, if_true] <;> omega
  have hexp : (signBits neg + b) / 2 ^ 52 % 2 ^ 11 = b / 2 ^ 52 := by
    cases neg <;> simp only [signBits, Bool.false_eq_true, if_false, if_true] <;> omega
  have hfrac : (signBits neg + b) % 2 ^ 52 = b % 2 ^ 52 := by
    cases neg <;> simp only [signBits, Bool.false_eq_true, if_false, if_true] <;> omega
  have hneg : ((if neg then 1 else 0 : ℕ) == 1) = neg := by cases neg <;> rfl
  simp only [ofFloat, hbits, Nat.pow_eq, hsign, hexp, hfrac, hneg]
  rw [if_neg (by omega)]
  split
  · rw [patternMantissa, patternPlace, finite.injEq]
    exact ⟨rfl, by omega, by omega⟩
  · rw [patternMantissa, patternPlace, finite.injEq]
    exact ⟨rfl, by omega, by omega⟩

/-- A double that is not undefined is a sign and a pattern. -/
theorem eq_ofMagnitude {x : Float} (hx : ofFloat x ≠ .nan) : ∃ neg b, b ≤ infinity ∧ x = ofMagnitude neg b := by
  have hlt : x.toBits.toNat < 2 ^ 64 := x.toBits.toNat_lt
  refine ⟨x.toBits.toNat / 2 ^ 63 == 1, x.toBits.toNat % 2 ^ 63, ?_, ?_⟩
  · unfold infinity
    by_contra hb
    refine hx ?_
    simp only [ofFloat, Nat.pow_eq]
    rw [if_pos (by omega), if_neg (by omega)]
  · rw [ofMagnitude, ← Float.ofBits_toBits x]
    congr 1
    refine UInt64.toNat_inj.1 ?_
    rw [Float.ofBits_toBits, UInt64.toNat_ofNat']
    rcases Nat.lt_or_ge x.toBits.toNat (2 ^ 63) with h | h
    · rw [Nat.div_eq_of_lt h]
      simp only [Nat.reduceBEq, Bool.false_eq_true, if_false]
      omega
    · rw [show x.toBits.toNat / 2 ^ 63 = 1 by omega]
      simp only [Nat.reduceBEq, if_true, Nat.pow_eq]
      omega

theorem exists_eq_ofMagnitude {x : Float} {neg : Bool} {m : ℕ} {q : ℤ} (hx : ofFloat x = .finite neg m q) :
    ∃ b < infinity, x = ofMagnitude neg b ∧ value b = m * 2 ^ q := by
  obtain ⟨neg', b, hb, rfl⟩ := eq_ofMagnitude (x := x) (by rw [hx]; exact Binary.noConfusion)
  rcases Nat.lt_or_eq_of_le hb with hb | rfl
  · rw [ofFloat_ofMagnitude neg' hb, finite.injEq] at hx
    obtain ⟨rfl, rfl, rfl⟩ := hx
    exact ⟨b, hb, rfl, rfl⟩
  · rw [ofFloat_infinity] at hx
    cases hx

/-- The parts of a double as the machine takes them. -/
def unpacked : Binary → UnpackedFloat
  | .nan => .notANumber
  | .infinite neg => .infinity (sign neg)
  | .finite neg m q => if h : 0 < m then .finite (sign neg) m q h else .zero (sign neg)

theorem one_append_toNat (m : BitVec 52) : (1#1 ++ m).toNat = 2 ^ 52 + m.toNat := by
  rw [BitVec.toNat_append, BitVec.toNat_ofNat, Nat.shiftLeft_eq, Nat.mul_comm, ← Nat.two_pow_add_eq_or_of_lt m.isLt,
    Nat.mod_eq_of_lt (by decide), Nat.mul_one]

/-- The machine takes a double apart as this library does. -/
theorem unpack_toModel (x : Float) : x.toModel.unpack = unpacked (ofFloat x) := by
  have he := unpackExponent_toNat x.toBits.toBitVec
  have hm := unpackMantissa_toNat x.toBits.toBitVec
  have hs := unpackSign_toNat x.toBits.toBitVec
  rw [UInt64.toNat_toBitVec] at he hm hs
  have hall : @unpackExponent Format.binary64 x.toBits.toBitVec = -1#_ ↔
      x.toBits.toNat / 2 ^ 52 % 2 ^ 11 = 2047 := by
    rw [← he]
    exact ⟨fun h => by rw [h]; rfl, fun h => BitVec.eq_of_toNat_eq h⟩
  have hnone : @unpackExponent Format.binary64 x.toBits.toBitVec = 0#_ ↔
      x.toBits.toNat / 2 ^ 52 % 2 ^ 11 = 0 := by
    rw [← he]
    exact ⟨fun h => by rw [h]; rfl, fun h => BitVec.eq_of_toNat_eq h⟩
  have hzero : @unpackMantissa Format.binary64 x.toBits.toBitVec = 0#_ ↔ x.toBits.toNat % 2 ^ 52 = 0 := by
    rw [← hm]
    exact ⟨fun h => by rw [h]; rfl, fun h => BitVec.eq_of_toNat_eq h⟩
  change UnpackedFloat.unpack Format.binary64 x.toBits.toBitVec = _
  simp only [UnpackedFloat.unpack, ofFloat, hall, hnone, hzero, sign_ofBitVec, hs, he, hm, Nat.pow_eq]
  split
  · split <;> rfl
  · split
    · rename_i hexp
      rw [unpacked]
      split
      · rw [dif_neg (by omega)]
      · rw [dif_pos (by omega), UnpackedFloat.finite.injEq, hexp]
        exact ⟨rfl, rfl, rfl⟩
    · rw [unpacked, dif_pos (by omega), UnpackedFloat.finite.injEq, one_append_toNat, hm]
      exact ⟨rfl, rfl, rfl⟩

/-! ## Packing -/

/-- A mantissa that is normal for its exponent makes the double with the pattern of the two. -/
theorem ofModel_pack_finite (neg : Bool) {m : ℕ} {q : ℤ} (hm : 0 < m) (hlt : m < 2 ^ 53) (hq : -1074 ≤ q)
    (h : 2 ^ 52 ≤ m ∨ q = -1074) :
    Float.ofModel (.pack (.finite (sign neg) m q hm)) =
      ofMagnitude neg (min infinity ((q + 1074).toNat * 2 ^ 52 + m)) := by
  refine Float.toBits_inj.1 (UInt64.toNat_inj.1 ?_)
  rw [toBits_ofMagnitude neg (min_le_left _ _)]
  change (UnpackedFloat.pack Format.binary64 (.finite (sign neg) m q hm)).toNat = _
  have hbias : (q + Format.binary64.exponentBias + Format.binary64.mantissaBitsWithoutImplicit).toNat =
      (q + 1075).toNat := by
    change (q + 1023 + 52).toNat = _
    omega
  simp only [UnpackedFloat.pack, hbias]
  split
  · rename_i hexp
    change 2 ^ 11 ≤ _ at hexp
    have htop := packComponents_toNat neg (-1#11) 0#52
    change (packComponents Format.binary64 (sign neg) (-1#11) 0#52).toNat = _
    rw [htop, min_eq_left (by unfold infinity; omega)]
    rfl
  · rename_i hexp
    change ¬ 2 ^ 11 ≤ _ at hexp
    split
    · rename_i hlog
      have hlog : m.log2 = 52 := Nat.succ.inj hlog
      have hle : 2 ^ 52 ≤ m := hlog ▸ Nat.log2_self_le hm.ne'
      rw [packComponents_toNat, min_eq_right (by unfold infinity; omega), BitVec.toNat_ofNat, BitVec.toNat_ofNat]
      change signBits neg + (q + 1075).toNat % 2 ^ 11 * 2 ^ 52 + m % 2 ^ 52 = _
      omega
    · rename_i hlog
      have hlog : m.log2 ≠ 52 := fun h => hlog (congrArg Nat.succ h)
      have hsmall : m < 2 ^ 52 := by
        by_contra hle
        exact hlog ((Nat.log2_eq_iff hm.ne').2 ⟨not_lt.1 hle, hlt⟩)
      obtain rfl := h.resolve_left (by omega)
      rw [packComponents_toNat, min_eq_right (by unfold infinity; omega), BitVec.toNat_ofNat, BitVec.toNat_ofNat]
      change signBits neg + 0 * 2 ^ 52 + m % 2 ^ 52 = _
      omega

/-! ## Rounding -/

/-- What a mantissa with its two bits says about a number: the first bit is the half, and the second one whether there
is more behind it. -/
def Stands (em : ExtendedMantissa) (x : ℚ) : Prop :=
  match em.roundBit, em.stickyBit with
  | false, false => x = em.mantissa
  | false, true => em.mantissa < x ∧ x < em.mantissa + 1 / 2
  | true, false => x = em.mantissa + 1 / 2
  | true, true => em.mantissa + 1 / 2 < x ∧ x < em.mantissa + 1

theorem Stands.bounds {em : ExtendedMantissa} {x : ℚ} (h : Stands em x) : em.mantissa ≤ x ∧ x < em.mantissa + 1 := by
  obtain ⟨m, r, s⟩ := em
  cases r <;> cases s <;> simp only [Stands] at h ⊢ <;> constructor <;> linarith

/-- The two bits are enough to round. -/
theorem Stands.roundedMantissa_eq {em : ExtendedMantissa} {x : ℚ} (h : Stands em x) :
    em.roundedMantissa = roundEven x := by
  have hx : 0 ≤ x := (Nat.cast_nonneg em.mantissa).trans h.bounds.1
  obtain ⟨m, r, s⟩ := em
  cases r <;> cases s <;> simp only [Stands] at h
  · rw [h, roundEven_natCast]
    rfl
  · change m = roundEven x
    refine (roundEven_eq_of_abs_lt hx ?_).symm
    rw [abs_lt]
    constructor <;> linarith
  · rw [h, roundEven_half]
    rfl
  · change m + 1 = roundEven x
    refine (roundEven_eq_of_abs_lt hx ?_).symm
    rw [abs_lt]
    push_cast
    constructor <;> linarith

theorem Stands.shiftRightOne {em : ExtendedMantissa} {x : ℚ} (h : Stands em x) : Stands em.shiftRightOne (x / 2) := by
  obtain ⟨m, r, s⟩ := em
  obtain ⟨n, hn⟩ : ∃ n, m = 2 * n ∨ m = 2 * n + 1 := ⟨m / 2, by omega⟩
  rcases hn with rfl | rfl
  · have hdiv : 2 * n / 2 = n := by omega
    have hmod : (2 * n % 2 != 0) = false := by simp
    cases r <;> cases s <;> simp only [Stands, ExtendedMantissa.shiftRightOne, hdiv, hmod, Bool.or_self, Bool.or_true,
      Bool.or_false] at h ⊢ <;> push_cast at h
    · linarith
    all_goals constructor <;> linarith
  · have hdiv : (2 * n + 1) / 2 = n := by omega
    have hmod : ((2 * n + 1) % 2 != 0) = true := by simp
    cases r <;> cases s <;> simp only [Stands, ExtendedMantissa.shiftRightOne, hdiv, hmod, Bool.or_self, Bool.or_true,
      Bool.or_false] at h ⊢ <;> push_cast at h
    · linarith
    all_goals constructor <;> linarith

/-- Shifting a mantissa loses nothing that rounding needs. -/
theorem Stands.shiftRight {em : ExtendedMantissa} {x : ℚ} (h : Stands em x) (n : ℕ) : Stands (em >>> n) (x / 2 ^ n) := by
  change Stands (n.repeat ExtendedMantissa.shiftRightOne em) _
  induction n with
  | zero =>
    rw [pow_zero, div_one]
    exact h
  | succ n ih =>
    rw [pow_succ, ← div_div]
    exact ih.shiftRightOne

theorem stands_exact (m : ℕ) : Stands (.ofMantissaAndAccuracy m .exact) m := rfl

/-- A quotient with what its remainder says. -/
theorem stands_div (num : ℕ) {den : ℕ} (hden : 0 < den) :
    Stands (.ofMantissaAndAccuracy (num / den) (accuracyOfFraction (num % den) den)) (num / den) := by
  have hden' : (0 : ℚ) < den := Nat.cast_pos.2 hden
  have hsplit : (num : ℚ) / den = (num / den : ℕ) + (num % den : ℕ) / den := by
    have hnum : (num : ℚ) = den * (num / den : ℕ) + (num % den : ℕ) := by exact_mod_cast (Nat.div_add_mod num den).symm
    conv_lhs => rw [hnum]
    rw [add_div, mul_div_cancel_left₀ _ hden'.ne']
  have hlt : ((num % den : ℕ) : ℚ) / den < 1 := by
    rw [div_lt_one hden']
    exact_mod_cast Nat.mod_lt num hden
  rw [hsplit]
  unfold accuracyOfFraction
  split
  · rename_i hzero
    rw [hzero, Nat.cast_zero, zero_div, add_zero]
    rfl
  · rename_i hne
    have hpos : (0 : ℚ) < (num % den : ℕ) / den := div_pos (Nat.cast_pos.2 (Nat.pos_of_ne_zero hne)) hden'
    rcases Nat.lt_trichotomy (2 * (num % den)) den with h | h | h
    · have hhalf : ((num % den : ℕ) : ℚ) / den < 1 / 2 := by
        rw [div_lt_div_iff₀ hden' (by norm_num)]
        exact_mod_cast by omega
      rw [Nat.compare_eq_lt.2 h]
      simp only [Stands, ExtendedMantissa.ofMantissaAndAccuracy]
      constructor <;> linarith
    · have hhalf : ((num % den : ℕ) : ℚ) / den = 1 / 2 := by
        rw [div_eq_div_iff hden'.ne' (by norm_num)]
        exact_mod_cast by omega
      rw [Nat.compare_eq_eq.2 h, hhalf]
      rfl
    · have hhalf : (1 : ℚ) / 2 < ((num % den : ℕ) : ℚ) / den := by
        rw [div_lt_div_iff₀ (by norm_num) hden']
        exact_mod_cast by omega
      rw [Nat.compare_eq_gt.2 h]
      simp only [Stands, ExtendedMantissa.ofMantissaAndAccuracy]
      constructor <;> linarith

/-! ## Rounded magnitudes -/

theorem targetExponent_def (m : ℕ) (e : ℤ) :
    Format.binary64.targetExponent (totalExponent m e) = max ((m.log2 : ℤ) + 1 + e - 53) (-1074) := rfl

/-- A mantissa that is rounded already is not shifted. -/
theorem shiftToTargetExponent_of_lt {r : ℕ} {t : ℤ} (hr : r < 2 ^ 53) (ht : -1074 ≤ t) :
    shiftToTargetExponent Format.binary64 r t .exact = (⟨r, false, false⟩, t) := by
  have hlog : r.log2 < 53 := by
    rcases Nat.eq_zero_or_pos r with rfl | hpos
    · decide
    · exact (Nat.log2_lt hpos.ne').2 hr
  have hshift : (Format.binary64.targetExponent (totalExponent r t) - t).toNat = 0 := by
    rw [targetExponent_def]
    omega
  rw [shiftToTargetExponent, shiftToExponent, hshift]
  exact Prod.ext rfl (Int.add_zero t)

/-- A mantissa that rounding has made a power of two loses its last place. -/
theorem shiftToTargetExponent_carry {t : ℤ} (ht : -1074 ≤ t) :
    shiftToTargetExponent Format.binary64 (2 ^ 53) t .exact = (⟨2 ^ 52, false, false⟩, t + 1) := by
  have hshift : (Format.binary64.targetExponent (totalExponent (2 ^ 53) t) - t).toNat = 1 := by
    rw [targetExponent_def, Nat.log2_two_pow]
    omega
  rw [shiftToTargetExponent, shiftToExponent, hshift]
  rfl

/-- The two roundings of the machine: the second one is exact. -/
theorem roundWithAccuracy_eq (s : Sign) {m r : ℕ} {e t t' : ℤ} {acc : Accuracy} {em em' : ExtendedMantissa}
    (hfirst : shiftToTargetExponent Format.binary64 m e acc = (em, t)) (hr : em.roundedMantissa = r)
    (hsecond : shiftToTargetExponent Format.binary64 r t .exact = (em', t')) :
    roundWithAccuracy Format.binary64 s m e acc =
      if h : em'.mantissa = 0 then .zero s else .finite s em'.mantissa t' (Nat.pos_of_ne_zero h) := by
  subst hr
  unfold roundWithAccuracy
  rw [hfirst]
  dsimp only
  rw [hsecond]

section
variable {v : ℚ} (hv : 0 < v) {m : ℕ} {e : ℤ} {acc : Accuracy}
  (hstands : Stands (.ofMantissaAndAccuracy m acc) (v / 2 ^ e)) (he : e ≤ lastPlace v)
include hv hstands he

/-- The machine rounds at the last place. -/
theorem targetExponent_eq : Format.binary64.targetExponent (totalExponent m e) = lastPlace v := by
  have hunit := two_zpow_pos e
  have hmantissa : (ExtendedMantissa.ofMantissaAndAccuracy m acc).mantissa = m := by
    rcases acc with _ | o
    · rfl
    · cases o <;> rfl
  obtain ⟨hle, hlt⟩ := hstands.bounds
  rw [hmantissa] at hle hlt
  rw [le_div_iff₀ hunit] at hle
  rw [div_lt_iff₀ hunit] at hlt
  rw [targetExponent_def]
  rcases Nat.eq_zero_or_pos m with rfl | hm
  · have hleast : lastPlace v = -1074 := by
      by_contra hne
      have hbelow := le_of_lastPlace hv (lt_of_le_of_ne (le_lastPlace v) (Ne.symm hne))
      have hunits : (2 : ℚ) ^ e ≤ 2 ^ lastPlace v := zpow_le_zpow_right₀ (by norm_num) he
      have := two_zpow_pos (lastPlace v)
      push_cast at hlt
      linarith
    rw [Nat.log2_zero]
    omega
  · have hlow : (2 : ℚ) ^ m.log2 ≤ m := by exact_mod_cast Nat.log2_self_le hm.ne'
    have hhigh : (m : ℚ) + 1 ≤ 2 ^ (m.log2 + 1) := by exact_mod_cast Nat.lt_log2_self
    have hlog : (m.log2 : ℤ) + e ≤ Int.log 2 v := by
      rw [← Int.zpow_le_iff_le_log (by decide) hv, zpow_add₀ (by norm_num), zpow_natCast]
      exact_mod_cast (mul_le_mul_of_nonneg_right hlow hunit.le).trans hle
    have hlog' : Int.log 2 v < ((m.log2 + 1 : ℕ) : ℤ) + e := by
      rw [← Int.lt_zpow_iff_log_lt (by decide) hv, zpow_add₀ (by norm_num), zpow_natCast]
      exact_mod_cast hlt.trans_le (mul_le_mul_of_nonneg_right hhigh hunit.le)
    unfold lastPlace
    omega

/-- What the machine rounds a number to is the double with its pattern. -/
theorem ofModel_roundWithAccuracy (neg : Bool) :
    Float.ofModel (.pack (roundWithAccuracy Format.binary64 (sign neg) m e acc)) =
      ofMagnitude neg (min infinity (pattern v)) := by
  set t := lastPlace v with ht
  have hfirst : shiftToTargetExponent Format.binary64 m e acc =
      (ExtendedMantissa.ofMantissaAndAccuracy m acc >>> (t - e).toNat, t) := by
    rw [shiftToTargetExponent, targetExponent_eq hv hstands he, shiftToExponent, Prod.mk.injEq]
    exact ⟨rfl, by omega⟩
  have hround : (ExtendedMantissa.ofMantissaAndAccuracy m acc >>> (t - e).toNat).roundedMantissa =
      roundEven (v / 2 ^ t) := by
    rw [(hstands.shiftRight _).roundedMantissa_eq, div_div, ← zpow_natCast, ← zpow_add₀ (by norm_num)]
    congr 3
    omega
  have hplace := le_lastPlace v
  have hle := roundEven_le hv
  have hnormal : 2 ^ 52 ≤ roundEven (v / 2 ^ t) ∨ t = -1074 :=
    (eq_or_lt_of_le hplace).symm.imp (le_roundEven hv) Eq.symm
  have hpattern : pattern v = (t + 1074).toNat * 2 ^ 52 + roundEven (v / 2 ^ t) := if_neg hv.ne'
  rw [hpattern]
  generalize roundEven (v / 2 ^ t) = r at *
  rcases Nat.lt_or_eq_of_le hle with hlt | rfl
  · rw [roundWithAccuracy_eq _ hfirst hround (shiftToTargetExponent_of_lt hlt hplace)]
    rcases Nat.eq_zero_or_pos r with rfl | hr
    · have hleast : t = -1074 := hnormal.resolve_left (by omega)
      rw [hleast]
      exact ofModel_pack_zero neg
    · rw [dif_neg hr.ne']
      exact ofModel_pack_finite neg hr hlt hplace hnormal
  · have hcarry : (t + 1 + 1074).toNat * 2 ^ 52 + 2 ^ 52 = (t + 1074).toNat * 2 ^ 52 + 2 ^ 53 := by omega
    rw [roundWithAccuracy_eq _ hfirst hround (shiftToTargetExponent_carry hplace), dif_neg (by decide),
      ofModel_pack_finite neg (by decide) (by decide) (by omega) (.inl (le_refl _)), hcarry]

end

/-! ## Arithmetic -/

/-- The size of a quotient by the sizes of the two numbers. -/
theorem log_div_bounds {num den : ℕ} (hnum : 0 < num) (hden : 0 < den) :
    (num.log2 : ℤ) - den.log2 - 1 ≤ Int.log 2 ((num : ℚ) / den) ∧
      Int.log 2 ((num : ℚ) / den) ≤ (num.log2 : ℤ) - den.log2 := by
  have hnum' : (0 : ℚ) < num := Nat.cast_pos.2 hnum
  have hden' : (0 : ℚ) < den := Nat.cast_pos.2 hden
  have hpos := div_pos hnum' hden'
  constructor
  · have hlow : (2 : ℚ) ^ num.log2 ≤ num := by exact_mod_cast Nat.log2_self_le hnum.ne'
    have hhigh : (den : ℚ) ≤ 2 ^ (den.log2 + 1) := by exact_mod_cast Nat.lt_log2_self.le
    have hexponent : (num.log2 : ℤ) - den.log2 - 1 = (num.log2 : ℤ) - (den.log2 + 1 : ℕ) := by omega
    rw [hexponent, ← Int.zpow_le_iff_le_log (by decide) hpos, Nat.cast_ofNat, zpow_sub₀ (by norm_num), zpow_natCast,
      zpow_natCast]
    exact div_le_div₀ hnum'.le hlow hden' hhigh
  · have hhigh : (num : ℚ) < 2 ^ (num.log2 + 1) := by exact_mod_cast Nat.lt_log2_self
    have hlow : (2 : ℚ) ^ den.log2 ≤ den := by exact_mod_cast Nat.log2_self_le hden.ne'
    have hexponent : (num.log2 : ℤ) - den.log2 + 1 = (num.log2 + 1 : ℕ) - (den.log2 : ℤ) := by omega
    rw [← Int.lt_add_one_iff, hexponent, ← Int.lt_zpow_iff_log_lt (by decide) hpos, Nat.cast_ofNat,
      zpow_sub₀ (by norm_num), zpow_natCast, zpow_natCast]
    exact div_lt_div₀ hhigh hlow (by positivity) (by positivity)

theorem le_log_mul {v : ℚ} (hv : 0 < v) (q : ℤ) : Int.log 2 v + q ≤ Int.log 2 (v * 2 ^ q) := by
  rw [← Int.zpow_le_iff_le_log (by decide) (mul_pos hv (two_zpow_pos q)), Nat.cast_ofNat, zpow_add₀ (by norm_num)]
  exact mul_le_mul_of_nonneg_right (by exact_mod_cast Int.zpow_log_le_self (by decide) hv) (two_zpow_pos q).le

theorem unpack_ofMagnitude_zero (neg : Bool) : (ofMagnitude neg 0).toModel.unpack = .zero (sign neg) := by
  rw [unpack_toModel, ofFloat_ofMagnitude neg (by decide)]
  rfl

theorem unpack_ofMagnitude (neg : Bool) {b : ℕ} (hb : b < infinity) (hpos : 0 < b) :
    (ofMagnitude neg b).toModel.unpack =
      .finite (sign neg) (patternMantissa b) ((patternPlace b : ℤ) - 1074) (patternMantissa_pos hpos) := by
  rw [unpack_toModel, ofFloat_ofMagnitude neg hb, unpacked, dif_pos (patternMantissa_pos hpos)]

section
variable (a a' : Bool) {b b' : ℕ} (hb : b < infinity) (hb' : b' < infinity)
include hb hb'

/-- The product of doubles is the double with the pattern of the product. -/
theorem mul_ofMagnitude :
    ofMagnitude a b * ofMagnitude a' b' = ofMagnitude (a ^^ a') (min infinity (pattern (value b * value b'))) := by
  change Float.ofModel (.pack (UnpackedFloat.mul Format.binary64 (ofMagnitude a b).toModel.unpack
    (ofMagnitude a' b').toModel.unpack)) = _
  have hnull : min infinity (pattern 0) = 0 := rfl
  rcases Nat.eq_zero_or_pos b with rfl | hpos
  · rw [unpack_ofMagnitude_zero, value_zero, zero_mul, hnull, ← ofModel_pack_zero, ← sign_mul]
    rcases Nat.eq_zero_or_pos b' with rfl | hpos'
    · rw [unpack_ofMagnitude_zero]
      rfl
    · rw [unpack_ofMagnitude a' hb' hpos']
      rfl
  · rcases Nat.eq_zero_or_pos b' with rfl | hpos'
    · rw [unpack_ofMagnitude_zero, unpack_ofMagnitude a hb hpos, value_zero, mul_zero, hnull, ← ofModel_pack_zero,
        ← sign_mul]
      rfl
    · rw [unpack_ofMagnitude a hb hpos, unpack_ofMagnitude a' hb' hpos']
      have hunit := two_zpow_pos (((patternPlace b : ℤ) - 1074) + ((patternPlace b' : ℤ) - 1074))
      have hproduct : value b * value b' = ((patternMantissa b * patternMantissa b' : ℕ) : ℚ) *
          2 ^ (((patternPlace b : ℤ) - 1074) + ((patternPlace b' : ℤ) - 1074)) := by
        rw [value, value, zpow_add₀ (by norm_num)]
        push_cast
        ring
      have hv := mul_pos (value_pos hpos) (value_pos hpos')
      have hstands : Stands (.ofMantissaAndAccuracy (patternMantissa b * patternMantissa b') .exact)
          (value b * value b' / 2 ^ (((patternPlace b : ℤ) - 1074) + ((patternPlace b' : ℤ) - 1074))) := by
        rw [hproduct, mul_div_assoc, div_self hunit.ne', mul_one]
        exact stands_exact _
      have hplace : ((patternPlace b : ℤ) - 1074) + ((patternPlace b' : ℤ) - 1074) ≤ lastPlace (value b * value b') := by
        by_cases hsmall : patternPlace b = 0 ∧ patternPlace b' = 0
        · have := le_lastPlace (value b * value b')
          omega
        · -- one of the mantissas has all its places, and then the product has them too
          have hm := patternMantissa_pos hpos
          have hm' := patternMantissa_pos hpos'
          have hnormal : 2 ^ 52 ≤ patternMantissa b * patternMantissa b' := by
            rcases patternMantissa_or b with h | h
            · exact h.trans (Nat.le_mul_of_pos_right _ hm')
            · exact ((patternMantissa_or b').resolve_right fun h' => hsmall ⟨h, h'⟩).trans (Nat.le_mul_of_pos_left _ hm)
          refine le_lastPlace_of_le hv ?_
          rw [hproduct]
          exact mul_le_mul_of_nonneg_right (by exact_mod_cast hnormal) hunit.le
      rw [← ofModel_roundWithAccuracy hv hstands hplace, ← sign_mul]
      rfl

/-- The quotient of doubles is the double with the pattern of the quotient. -/
theorem div_ofMagnitude (hpos' : 0 < b') :
    ofMagnitude a b / ofMagnitude a' b' = ofMagnitude (a ^^ a') (min infinity (pattern (value b / value b'))) := by
  change Float.ofModel (.pack (UnpackedFloat.div Format.binary64 (ofMagnitude a b).toModel.unpack
    (ofMagnitude a' b').toModel.unpack)) = _
  have hnull : min infinity (pattern 0) = 0 := rfl
  rcases Nat.eq_zero_or_pos b with rfl | hpos
  · rw [unpack_ofMagnitude_zero, unpack_ofMagnitude a' hb' hpos', value_zero, zero_div, hnull, ← ofModel_pack_zero,
      ← sign_div]
    rfl
  · rw [unpack_ofMagnitude a hb hpos, unpack_ofMagnitude a' hb' hpos']
    set m := patternMantissa b with hm
    set m' := patternMantissa b' with hm'
    set e := (patternPlace b : ℤ) - 1074
    set e' := (patternPlace b' : ℤ) - 1074
    have hmpos : 0 < m := patternMantissa_pos hpos
    have hmpos' : 0 < m' := patternMantissa_pos hpos'
    have hv := div_pos (value_pos hpos) (value_pos hpos')
    set t := min (e - e') (Format.binary64.targetExponent (totalExponent m e - totalExponent m' e')) with ht
    have hquotient : value b / value b' / 2 ^ t = ((m <<< (e - e' - t).toNat : ℕ) : ℚ) / m' := by
      have hshift : (((e - e' - t).toNat : ℕ) : ℤ) = e - e' - t := by omega
      have hpow : (2 : ℚ) ^ (e - e' - t).toNat = 2 ^ e / 2 ^ e' / 2 ^ t := by
        rw [← zpow_natCast, hshift, zpow_sub₀ (by norm_num), zpow_sub₀ (by norm_num)]
      rw [value, value, Nat.shiftLeft_eq, Nat.cast_mul, Nat.cast_pow, Nat.cast_ofNat, hpow]
      ring
    have hstands := hquotient ▸ stands_div (m <<< (e - e' - t).toNat) hmpos'
    have hplace : t ≤ lastPlace (value b / value b') := by
      have hvalue : value b / value b' = (m : ℚ) / m' * 2 ^ (e - e') := by
        rw [zpow_sub₀ (by norm_num)]
        exact mul_div_mul_comm _ _ _ _
      have hlog := (log_div_bounds hmpos hmpos').1
      have hscale := le_log_mul (div_pos (Nat.cast_pos.2 hmpos) (Nat.cast_pos.2 hmpos') : (0 : ℚ) < m / m') (e - e')
      rw [← hvalue] at hscale
      have htarget : Format.binary64.targetExponent (totalExponent m e - totalExponent m' e') =
        max ((m.log2 : ℤ) + 1 + e - ((m'.log2 : ℤ) + 1 + e') - 53) (-1074) := rfl
      unfold lastPlace
      omega
    rw [← ofModel_roundWithAccuracy hv hstands hplace, ← sign_div]
    rfl

end

/-! ## Conversion -/

theorem encode_eq (m : ℕ) (q : ℤ) : encode m q = min infinity ((q + 1074).toNat * 2 ^ 52 + m) := rfl

section
variable {num den : ℕ} (hnum : 0 < num) (hden : 0 < den)

theorem scale_div (num den : ℕ) (q : ℤ) :
    ((num * 2 ^ (-q).toNat : ℕ) : ℚ) / (den * 2 ^ q.toNat : ℕ) = num / den / 2 ^ q := by
  rw [two_zpow_eq_div]
  push_cast
  field_simp

include hnum hden

/-- The place that is guessed from the sizes of the two numbers, and corrected by one, is the last one. -/
theorem place_eq {guess : ℤ} (hguess : guess = (num.log2 : ℤ) - den.log2 - 52) :
    max (-1074) (if num * 2 ^ (-guess).toNat < den * 2 ^ guess.toNat * 2 ^ 52 then guess - 1 else guess) =
      lastPlace (num / den) := by
  have hpos : (0 : ℚ) < num / den := div_pos (Nat.cast_pos.2 hnum) (Nat.cast_pos.2 hden)
  obtain ⟨hlow, hhigh⟩ := log_div_bounds hnum hden
  have hunder : num * 2 ^ (-guess).toNat < den * 2 ^ guess.toNat * 2 ^ 52 ↔
      Int.log 2 ((num : ℚ) / den) < 52 + guess := by
    rw [← Int.lt_zpow_iff_log_lt (by decide) hpos, Nat.cast_ofNat, zpow_add₀ (by norm_num),
      ← div_lt_iff₀ (two_zpow_pos _), ← scale_div, div_lt_iff₀ (by positivity), mul_comm ((2 : ℚ) ^ (52 : ℤ))]
    exact_mod_cast Iff.rfl
  rw [lastPlace]
  split
  · rename_i h
    have := hunder.1 h
    omega
  · rename_i h
    have := mt hunder.2 h
    omega

end

/-- A quotient becomes the double with its pattern. -/
theorem nearest_eq (neg : Bool) (num : ℕ) {den : ℕ} (hden : 0 < den) :
    nearest neg num den = ofMagnitude neg (min infinity (pattern (num / den))) := by
  rcases Nat.eq_zero_or_pos num with rfl | hnum
  · rw [nearest, if_pos (.inl rfl), Nat.cast_zero, zero_div]
    rfl
  · have hpos : (0 : ℚ) < num / den := div_pos (Nat.cast_pos.2 hnum) (Nat.cast_pos.2 hden)
    have hplace := place_eq hnum hden rfl
    have hround : roundDiv .even (num * 2 ^ (-lastPlace (num / den)).toNat) (den * 2 ^ (lastPlace (num / den)).toNat) =
        roundEven (num / den / 2 ^ lastPlace (num / den)) := by
      rw [roundDiv_even _ (by positivity), scale_div]
    rw [nearest, if_neg (by omega), pattern, if_neg hpos.ne', ← hround, ← encode_eq, ← hplace]
    simp only [Nat.pow_eq, decide_eq_true_eq]

/-! ## The ends of the doubles -/

theorem unpack_infinity (neg : Bool) : (ofMagnitude neg infinity).toModel.unpack = .infinity (sign neg) := by
  rw [unpack_toModel, ofFloat_infinity]
  rfl

theorem ofModel_pack_infinity (neg : Bool) : Float.ofModel (.pack (.infinity (sign neg))) = ofMagnitude neg infinity := by
  refine Float.toBits_inj.1 (UInt64.toNat_inj.1 ?_)
  rw [toBits_ofMagnitude neg (le_refl _)]
  exact packComponents_toNat neg (-1#11) 0#52

theorem unpack_nan : (toFloat .nan).toModel.unpack = .notANumber := by
  rw [unpack_toModel, ofFloat_nan]
  rfl

/-- What is infinite stays so under multiplication, unless it meets a zero. -/
theorem mul_infinity (a a' : Bool) {b b' : ℕ} (hb : b ≤ infinity) (hb' : b' ≤ infinity) (hpos : 0 < b) (hpos' : 0 < b')
    (h : b = infinity ∨ b' = infinity) : ofMagnitude a b * ofMagnitude a' b' = ofMagnitude (a ^^ a') infinity := by
  change Float.ofModel (.pack (UnpackedFloat.mul Format.binary64 (ofMagnitude a b).toModel.unpack
    (ofMagnitude a' b').toModel.unpack)) = _
  rw [← ofModel_pack_infinity, ← sign_mul]
  rcases Nat.lt_or_eq_of_le hb with hlt | rfl
  · rw [unpack_ofMagnitude a hlt hpos, h.resolve_left hlt.ne, unpack_infinity]
    rfl
  · rw [unpack_infinity]
    rcases Nat.lt_or_eq_of_le hb' with hlt | rfl
    · rw [unpack_ofMagnitude a' hlt hpos']
      rfl
    · rw [unpack_infinity]
      rfl

theorem zero_mul_infinity (a a' : Bool) : ofMagnitude a 0 * ofMagnitude a' infinity = toFloat .nan := by
  change Float.ofModel (.pack (UnpackedFloat.mul Format.binary64 (ofMagnitude a 0).toModel.unpack
    (ofMagnitude a' infinity).toModel.unpack)) = _
  rw [unpack_ofMagnitude_zero, unpack_infinity, ← ofModel_pack_nan]
  rfl

theorem infinity_div_infinity (a a' : Bool) : ofMagnitude a infinity / ofMagnitude a' infinity = toFloat .nan := by
  change Float.ofModel (.pack (UnpackedFloat.div Format.binary64 (ofMagnitude a infinity).toModel.unpack
    (ofMagnitude a' infinity).toModel.unpack)) = _
  rw [unpack_infinity, unpack_infinity, ← ofModel_pack_nan]
  rfl

theorem nan_div (x : Float) : toFloat .nan / x = toFloat .nan := by
  change Float.ofModel (.pack (UnpackedFloat.div Format.binary64 (toFloat .nan).toModel.unpack x.toModel.unpack)) = _
  rw [unpack_nan, ← ofModel_pack_nan]
  rfl

theorem infinity_div (a a' : Bool) {b : ℕ} (hb : b < infinity) (hpos : 0 < b) :
    ofMagnitude a infinity / ofMagnitude a' b = ofMagnitude (a ^^ a') infinity := by
  change Float.ofModel (.pack (UnpackedFloat.div Format.binary64 (ofMagnitude a infinity).toModel.unpack
    (ofMagnitude a' b).toModel.unpack)) = _
  rw [unpack_infinity, unpack_ofMagnitude a' hb hpos, ← ofModel_pack_infinity, ← sign_div]
  rfl

/-- The negative doubles; neither zero is one of them. -/
theorem lt_zero_iff (a : Bool) {b : ℕ} (hb : b ≤ infinity) : ofMagnitude a b < 0.0 ↔ a = true ∧ 0 < b := by
  rw [zero_eq]
  change decide (UnpackedFloat.lt (ofMagnitude a b).toModel.unpack (ofMagnitude false 0).toModel.unpack = true) = true ↔ _
  rw [decide_eq_true_eq, unpack_ofMagnitude_zero]
  rcases Nat.lt_or_eq_of_le hb with hlt | rfl
  · rcases Nat.eq_zero_or_pos b with rfl | hpos
    · rw [unpack_ofMagnitude_zero]
      cases a <;> decide
    · rw [unpack_ofMagnitude a hlt hpos]
      cases a
      · exact iff_of_false Bool.false_ne_true (by simp)
      · exact iff_of_true rfl ⟨rfl, hpos⟩
  · rw [unpack_infinity]
    cases a <;> decide

theorem nan_lt_zero : ¬ toFloat .nan < 0.0 := by
  change ¬ decide (UnpackedFloat.lt (toFloat .nan).toModel.unpack (0.0 : Float).toModel.unpack = true) = true
  rw [unpack_nan]
  exact Bool.false_ne_true

end ViewBridge.Binary
