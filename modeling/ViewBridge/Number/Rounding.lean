import ViewBridge.Number.Style
/-!
# Rounding and grouping

Doubles rounded to decimal places, and written with a fixed number of them and groups of three digits.
Scaling multiplies by a power of ten that is itself a double, so an extreme precision overflows to infinity.

Results:
* `group_nil_separator`: grouping with an empty separator changes nothing.
-/
namespace ViewBridge

/-- The power `a ^ n` as a double, by repeated squaring; `r` collects the factors. -/
def floatPower : (fuel : Nat) → (r a : Float) → (n : Nat) → Float
  | 0, r, _, _ => r
  | fuel + 1, r, a, n =>
    let r := if n % 2 = 1 then r * a else r
    if n / 2 = 0 then r else floatPower fuel r (a * a) (n / 2)

/-- Ten to a power of either sign. -/
def tenPower (n : Int) : Float :=
  let p := floatPower (Nat.log2 n.natAbs + 1) 1.0 10.0 n.natAbs
  if n < 0 then 1.0 / p else p

/-- A double rounded to decimal places, a half away from zero. -/
def roundHalfAway (x : Float) (places : Int) : Float :=
  match Binary.ofFloat x with
  | .finite .. => Binary.whole .halfAway (x * tenPower places) / tenPower places
  | _ => x

/-- Digits with a separator before every third one, counted from the right. -/
def group (sep : Chars) : Chars → Chars
  | [] => []
  | c :: rest => c :: (if rest.length % 3 = 0 ∧ rest ≠ [] then sep else []) ++ group sep rest

theorem group_nil_separator (ds : Chars) : group [] ds = ds := by
  induction ds with
  | nil => rfl
  | cons c rest ih => simp [group, ih]

/-- The digits before and after the point of a magnitude with a fixed number of places. -/
def fixedMagnitude (x : Float) (places : Nat) : Chars × Chars :=
  match Binary.ofFloat x with
  | .nan => ("NaN".toList, [])
  | .infinite _ => ("inf".toList, [])
  | .finite _ m q => fixedPlaces places (m * Nat.pow 2 q.toNat) (Nat.pow 2 (-q).toNat)

/-- A double rounded to a fixed number of places, with the given point and separator of thousands. -/
def formatNumber (x : Float) (places : Nat) (point thousands : Chars) : Chars :=
  let rounded := roundHalfAway x places
  let (whole, fraction) := fixedMagnitude rounded places
  (if rounded < 0.0 then ['-'] else []) ++ group thousands whole ++
    if places = 0 then [] else point ++ fraction

end ViewBridge
