/-!
# Binary floating point as exact numbers

A finite double is a sign and `m · 2^q` for natural `m < 2^53` and `q ≥ -1074`. Everything this library
does to a double beyond the four operations and comparison, it does on that pair: rounding to a whole
number, decimal digits, comparison with integers.

Results:
* `roundDiv_half_away`, `roundDiv_half_even`: the two ways of rounding a quotient, as quotients.
* `encode_of_lt`: below `2^53` the pair with exponent `-1074` is its own bit pattern.
-/
namespace ViewBridge

/-- A double taken apart. -/
inductive Binary where
  | nan
  | infinite (neg : Bool)
  | finite (neg : Bool) (m : Nat) (q : Int)
deriving DecidableEq, Repr

namespace Binary

/-- The parts of a double. -/
def ofFloat (x : Float) : Binary :=
  let bits := x.toBits.toNat
  let neg := bits / Nat.pow 2 63 == 1
  let e : Nat := bits / Nat.pow 2 52 % Nat.pow 2 11
  let frac : Nat := bits % Nat.pow 2 52
  if e = 2047 then
    if frac = 0 then .infinite neg else .nan
  else if e = 0 then .finite neg frac (-1074)
  else .finite neg (Nat.pow 2 52 + frac) ((e : Int) - 1075)

/-- How a quotient that lies halfway between two natural numbers is rounded. -/
inductive Tie where
  | away
  | even
deriving DecidableEq, Repr

/-- `num / den` rounded to the nearest natural number. -/
def roundDiv (tie : Tie) (num den : Nat) : Nat :=
  let low := num / den
  let twice := 2 * (num % den)
  if twice < den then low
  else if den < twice then low + 1
  else match tie with
    | .away => low + 1
    | .even => if low % 2 = 0 then low else low + 1

theorem roundDiv_half_away (num den : Nat) (h : 0 < den) :
    roundDiv .away num den = (2 * num + den) / (2 * den) := by
  have hd := Nat.div_add_mod num den
  have hm := Nat.mod_lt num h
  unfold roundDiv
  simp only
  generalize num / den = a at *
  generalize num % den = b at *
  have key : 2 * num + den = a * (2 * den) + (2 * b + den) := by
    rw [← hd, Nat.mul_add, Nat.mul_comm a, Nat.mul_assoc]; omega
  rw [key, Nat.mul_comm a, Nat.mul_add_div (by omega)]
  split
  · rw [Nat.div_eq_of_lt (by omega)]; rfl
  · have hq : (2 * b + den) / (2 * den) = 1 := Nat.div_eq_of_lt_le (by omega) (by omega)
    rw [hq]; split <;> rfl

theorem roundDiv_half_even (num den : Nat) (h : 2 * (num % den) = den) :
    roundDiv .even num den = num / den + num / den % 2 := by
  unfold roundDiv
  simp only [h, Nat.lt_irrefl, if_false]
  split <;> omega

/-- The bit pattern, sign apart, of the double nearest to `m · 2^q`, for `m ≤ 2^53` and `q ≥ -1074` with
`m ≥ 2^52` unless `q = -1074`; too large a number becomes infinite. -/
def encode (m : Nat) (q : Int) : Nat :=
  min (2047 * Nat.pow 2 52) ((q + 1074).toNat * Nat.pow 2 52 + m)

theorem encode_of_lt {m : Nat} (h : m < Nat.pow 2 53) : encode m (-1074) = m := by
  simp only [Nat.pow_eq] at h
  simp only [encode, Int.add_left_neg, Int.toNat_zero, Nat.zero_mul, Nat.zero_add, Nat.pow_eq]
  omega

/-- The double with the given sign and bit pattern of its magnitude. -/
def ofMagnitude (neg : Bool) (bits : Nat) : Float :=
  Float.ofBits (UInt64.ofNat (bits + if neg then Nat.pow 2 63 else 0))

/-- The double nearest to `± num / den`, ties to the even pattern. -/
def nearest (neg : Bool) (num den : Nat) : Float :=
  if num = 0 ∨ den = 0 then ofMagnitude neg 0
  else
    let guess : Int := (Nat.log2 num : Int) - (Nat.log2 den : Int) - 52
    let under : Bool := num * Nat.pow 2 (-guess).toNat < den * Nat.pow 2 guess.toNat * Nat.pow 2 52
    let q : Int := max (-1074) (if under then guess - 1 else guess)
    ofMagnitude neg (encode (roundDiv .even (num * Nat.pow 2 (-q).toNat) (den * Nat.pow 2 q.toNat)) q)

/-- The double of an integer. -/
def ofInt (i : Int) : Float := nearest (i < 0) i.natAbs 1

/-- The double that the parts make. -/
def toFloat : Binary → Float
  | .nan => ofMagnitude false (2047 * Nat.pow 2 52 + Nat.pow 2 51)
  | .infinite neg => ofMagnitude neg (2047 * Nat.pow 2 52)
  | .finite neg m q => nearest neg (m * Nat.pow 2 q.toNat) (Nat.pow 2 (-q).toNat)

/-- The ways of making a whole number of a double. -/
inductive Whole where
  | floor
  | ceil
  | halfAway
  | towardZero
deriving DecidableEq, Repr

/-- The magnitude of `± m / 2^k` made whole. -/
def wholeMagnitude (way : Whole) (neg : Bool) (m k : Nat) : Nat :=
  let below := m / Nat.pow 2 k
  let above := (m + (Nat.pow 2 k - 1)) / Nat.pow 2 k
  match way with
  | .floor => if neg then above else below
  | .ceil => if neg then below else above
  | .halfAway => roundDiv .away m (Nat.pow 2 k)
  | .towardZero => below

/-- A double made whole; the sign stays, also that of a zero. -/
def whole (way : Whole) (x : Float) : Float :=
  match ofFloat x with
  | .finite neg m q => if q < 0 then nearest neg (wholeMagnitude way neg m (-q).toNat) 1 else x
  | _ => x

/-- The magnitude of a double. -/
def abs (x : Float) : Float := Float.ofBits (UInt64.ofNat (x.toBits.toNat % Nat.pow 2 63))

/-- The integer a finite double is exactly, if it is one. -/
def toInt? : Binary → Option Int
  | .finite neg m q =>
    let magnitude := m * Nat.pow 2 q.toNat
    let unit := Nat.pow 2 (-q).toNat
    if magnitude % unit = 0 then
      some (if neg then -((magnitude / unit : Nat) : Int) else ((magnitude / unit : Nat) : Int))
    else none
  | _ => none

/-- What is left of the first double after the second has been taken away as often as it fits, in the sign of
the first. -/
def remainder (x y : Float) : Float :=
  match ofFloat x, ofFloat y with
  | .finite neg m q, .finite _ m' q' =>
    if m' = 0 then toFloat .nan
    else
      let unit := min q q'
      let left := m * Nat.pow 2 (q - unit).toNat % (m' * Nat.pow 2 (q' - unit).toNat)
      nearest neg (left * Nat.pow 2 unit.toNat) (Nat.pow 2 (-unit).toNat)
  | .finite .., .infinite _ => x
  | _, _ => toFloat .nan

/-- How often the second double fits into the first, so that what is left is not negative. -/
def wholeQuotient (x y : Float) : Float :=
  let q := whole .towardZero (x / y)
  if remainder x y < 0.0 then (if 0.0 < y then q - 1.0 else q + 1.0) else q

/-- The integer part; the infinities and the undefined number have none. -/
def truncate? : Binary → Option Int
  | .finite neg m q =>
    let n : Int := ((m * Nat.pow 2 q.toNat / Nat.pow 2 (-q).toNat : Nat) : Int)
    some (if neg then -n else n)
  | _ => none

/-- The integer part held within bounds; an undefined number counts as zero. -/
def clamp (lo hi : Int) (x : Binary) : Int :=
  match x with
  | .nan => 0
  | .infinite neg => if neg then lo else hi
  | .finite .. => max lo (min hi ((truncate? x).getD 0))

/-- The order of `± m · 2^q` and an integer. -/
def cmpInt (neg : Bool) (m : Nat) (q : Int) (i : Int) : Ordering :=
  let v : Int := (m * Nat.pow 2 q.toNat : Nat)
  compare (if neg then -v else v) (i * (Nat.pow 2 (-q).toNat : Nat))

/-- A key by which doubles are ordered in full: negative before positive, `-0` before `0`, and an undefined
number beyond the infinity of its sign. -/
def orderKey (x : Float) : Int :=
  let bits := x.toBits.toNat
  let magnitude : Int := (bits % Nat.pow 2 63 : Nat)
  if bits / Nat.pow 2 63 = 1 then -magnitude - 1 else magnitude

end Binary
end ViewBridge
