import ViewBridge.Number.Binary
import ViewBridge.Text.Basic
/-!
# The shortest decimal that reads back

For a positive double `m · 2^q` the numbers that read back as it form an interval, whose ends belong to it
when `m` is even. For 1, 2, … 17 digits the two neighbours of the double on that decimal grid are tried in
exact arithmetic; the first grid with a neighbour inside the interval wins, and of two the nearer one.
-/
namespace ViewBridge

/-- A positive decimal `0.d₁d₂… · 10^point`, first and last digit not zero. -/
structure Digits where
  digits : Chars
  point : Int
deriving DecidableEq, Repr

namespace Digits

/-- The order of `x · 10^g` and `y · 2^e`. -/
def cmpScaled (x : Nat) (g : Int) (y : Nat) (e : Int) : Ordering :=
  compare (x * Nat.pow 10 g.toNat * Nat.pow 2 (-e).toNat) (y * Nat.pow 2 e.toNat * Nat.pow 10 (-g).toNat)

/-- The `k` with `10^(k-1) ≤ num / den < 10^k`. -/
def order (num den : Nat) : Int :=
  if den ≤ num then ((Nat.toDigits 10 (num / den)).length : Int)
  else 1 - ((Nat.toDigits 10 ((den - 1) / num)).length : Int)

/-- The interval of reals that read back as a double, in units of a quarter of its last place. -/
structure Reach where
  low : Nat
  mid : Nat
  high : Nat
  unit : Int
  closed : Bool

/-- The interval of `m · 2^q`; below a power of two the spacing halves. -/
def reach (m : Nat) (q : Int) : Reach :=
  { low := if m = Nat.pow 2 52 ∧ q > -1074 then 4 * m - 1 else 4 * m - 2
    mid := 4 * m
    high := 4 * m + 2
    unit := q - 2
    closed := m % 2 == 0 }

/-- Whether `x · 10^g` lies in the interval. -/
def Reach.holds (r : Reach) (x : Nat) (g : Int) : Bool :=
  let low := cmpScaled x g r.low r.unit
  let high := cmpScaled x g r.high r.unit
  (low == .gt || (r.closed && low == .eq)) && (high == .lt || (r.closed && high == .eq))

/-- The neighbour on the grid of `10^g` that reads back, the nearer one if both do. -/
def neighbour? (r : Reach) (num den : Nat) (g : Int) : Option Nat :=
  let up := num * Nat.pow 10 (-g).toNat
  let down := den * Nat.pow 10 g.toNat
  let a := up / down
  let near := if 2 * (up % down) ≤ down then a else a + 1
  let far := if near = a then a + 1 else a
  if near ≠ 0 && r.holds near g then some near
  else if far ≠ 0 && r.holds far g then some far
  else none

/-- A decimal without its trailing zeros. -/
def ofNat (x : Nat) (g : Int) : Digits :=
  let ds := Text.ofNat x
  { digits := Text.dropEndWhile (· == '0') ds, point := (ds.length : Int) + g }

/-- Try `n`, `n + 1`, … digits, `fuel` lengths in all. -/
def search (r : Reach) (num den : Nat) (k : Int) : (fuel n : Nat) → Digits
  | 0, n => ofNat (num * Nat.pow 10 (n - k : Int).toNat / (den * Nat.pow 10 (k - n : Int).toNat)) (k - n)
  | fuel + 1, n =>
    match neighbour? r num den (k - n) with
    | some x => ofNat x (k - n)
    | none => search r num den k fuel (n + 1)

/-- The shortest decimal of `m · 2^q` for positive `m`. -/
def shortest (m : Nat) (q : Int) : Digits :=
  let num := m * Nat.pow 2 q.toNat
  let den := Nat.pow 2 (-q).toNat
  search (reach m q) num den (order num den) 17 1

end Digits
end ViewBridge
