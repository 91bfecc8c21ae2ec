import ViewBridge.Number.Binary
import ViewBridge.Text.Class
import ViewBridge.Text.Basic
/-!
# Reading numbers

Decimal text to doubles and bounded integers. A double is the one nearest to the exact decimal; an integer
text is one that consists of an optional sign and digits and lies within the bounds.
-/
namespace ViewBridge

/-- The value of a run of ASCII digits. -/
def digitsValue (s : Chars) : Nat := s.foldl (fun n c => n * 10 + (c.toNat - 48)) 0

/-- The double nearest to `± mantissa · 10^e`; far outside the range no power is computed. -/
def decimalFloat (neg : Bool) (mantissa : Nat) (e : Int) : Float :=
  let size : Int := (Nat.toDigits 10 mantissa).length + e
  if mantissa = 0 ∨ size < -330 then Binary.ofMagnitude neg 0
  else if 310 < size then Binary.toFloat (.infinite neg)
  else Binary.nearest neg (mantissa * Nat.pow 10 e.toNat) (Nat.pow 10 (-e).toNat)

/-- A sign at the start of a text: whether it is a minus, and the rest. -/
def takeSign : Chars → Bool × Chars
  | '-' :: rest => (true, rest)
  | '+' :: rest => (false, rest)
  | s => (false, s)

/-- The exponent part: nothing, or `e`, an optional sign and digits up to the end. -/
def readExponent? : Chars → Option Int
  | [] => some 0
  | c :: rest =>
    if c = 'e' ∨ c = 'E' then
      let (neg, ds) := takeSign rest
      if ds ≠ [] ∧ ds.all Text.isDigit then
        some (if neg then -(digitsValue ds : Int) else (digitsValue ds : Int))
      else none
    else none

/-- A decimal text, all of it: sign, digits with an optional point on any side of them, exponent. -/
def readFloat? (s : Chars) : Option Float :=
  let (neg, body) := takeSign s
  let before := body.takeWhile Text.isDigit
  let rest := body.dropWhile Text.isDigit
  let (after, tail) := match rest with
    | '.' :: r => (r.takeWhile Text.isDigit, r.dropWhile Text.isDigit)
    | r => ([], r)
  if before = [] ∧ after = [] then none
  else (readExponent? tail).map fun e =>
    decimalFloat neg (digitsValue (before ++ after)) (e - after.length)

/-- An integer text, all of it, within bounds. -/
def readInt? (lo hi : Int) (s : Chars) : Option Int :=
  let (neg, ds) := takeSign s
  if ds ≠ [] ∧ ds.all Text.isDigit then
    let n : Int := if neg then -(digitsValue ds : Int) else (digitsValue ds : Int)
    if lo ≤ n ∧ n ≤ hi then some n else none
  else none

/-- The least 64-bit integer. -/
def int64Min : Int := -(Nat.pow 2 63)

/-- The greatest 64-bit integer. -/
def int64Max : Int := Nat.pow 2 63 - 1

/-- A 64-bit integer text. -/
def readInt64? (s : Chars) : Option Int := readInt? int64Min int64Max s

/-- The leading integer of a text after blanks: a sign and the digits that follow; zero when there is none or
it does not fit 64 bits. -/
def leadingInt (s : Chars) : Int :=
  let s := s.dropWhile Text.isBlank
  let sign := s.takeWhile fun c => c == '-' || c == '+'
  let (lead, rest) := (sign.take 1, s.drop (sign.take 1).length)
  (readInt64? (lead ++ rest.takeWhile Text.isDigit)).getD 0

/-- The starts of a text, the longest first. -/
def longestFirst (s : Chars) : List Chars :=
  (List.range (s.length + 1)).reverse.map s.take

/-- The double of the longest start of a text, after blanks, that is a decimal; zero when there is none. -/
def leadingFloat (s : Chars) : Float :=
  let run := (s.dropWhile Text.isBlank).takeWhile fun c =>
    Text.isDigit c || c == '-' || c == '+' || c == '.' || c == 'e' || c == 'E'
  ((longestFirst run).findSome? readFloat?).getD (Binary.ofMagnitude false 0)

end ViewBridge
