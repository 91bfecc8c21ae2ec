import ViewBridge.Number.Shortest
/-!
# Writing numbers

A style fixes what the shortest digits leave open: from which exponents on a number is written with an
exponent, and how. Three styles are in use: printed values, values inside a printed collection, and JSON.
Numbers with a fixed count of decimals are rounded exactly, a half to the even neighbour.

Results:
* `fixed_length`: fixed places are as many as asked for.
-/
namespace ViewBridge

/-- How a double is written. `lowest` and `highest` bound the exponents of the first digit for which no
exponent is written; `none` means there is no such bound. -/
structure FloatStyle where
  lowest : Option Int
  highest : Option Int
  plusSign : Bool
deriving DecidableEq, Repr

namespace FloatStyle

/-- Printed values never have an exponent. -/
def printed : FloatStyle := ⟨none, none, false⟩

/-- Inside collections an exponent is written below `1e-4` and from `1e16` on. -/
def listed : FloatStyle := ⟨some (-4), some 15, false⟩

/-- In JSON an exponent is written below `1e-5` and from `1e16` on, always with its sign. -/
def json : FloatStyle := ⟨some (-5), some 15, true⟩

/-- The digits with a point and at least one decimal. -/
def positional (d : Digits) : Chars :=
  if d.point ≤ 0 then '0' :: '.' :: List.replicate (-d.point).toNat '0' ++ d.digits
  else
    let k := d.point.toNat
    if d.digits.length ≤ k then d.digits ++ List.replicate (k - d.digits.length) '0' ++ ['.', '0']
    else d.digits.take k ++ '.' :: d.digits.drop k

/-- The digits with a point after the first one, if there are more, and an exponent. -/
def scientific (plusSign : Bool) (d : Digits) : Chars :=
  let e := d.point - 1
  let sign := if e < 0 then ['-'] else if plusSign then ['+'] else []
  let body := match d.digits with
    | [] => []
    | [x] => [x]
    | x :: rest => x :: '.' :: rest
  body ++ 'e' :: sign ++ Text.ofNat e.natAbs

/-- The text of a double; a zero keeps its sign. -/
def render (style : FloatStyle) (x : Float) : Chars :=
  match Binary.ofFloat x with
  | .nan => "NaN".toList
  | .infinite neg => if neg then "-inf".toList else "inf".toList
  | .finite neg m q =>
    let sign := if neg then ['-'] else []
    if m = 0 then sign ++ "0.0".toList
    else
      let d := Digits.shortest m q
      let e := d.point - 1
      let small := style.lowest.any (e < ·)
      let large := style.highest.any (· < e)
      sign ++ if small || large then scientific style.plusSign d else positional d

end FloatStyle

/-- The text of `num / den` with exactly `places` decimals, a half rounded to the even neighbour: the digits
before the point and the digits after it. -/
def fixedPlaces (places num den : Nat) : Chars × Chars :=
  let scaled := Binary.roundDiv .even (num * Nat.pow 10 places) den
  let ds := Text.padLeft '0' (places + 1) (Text.ofNat scaled)
  (ds.take (ds.length - places), ds.drop (ds.length - places))

theorem fixed_length (places num den : Nat) : (fixedPlaces places num den).2.length = places := by
  simp only [fixedPlaces, Text.padLeft, List.length_drop, List.length_append, List.length_replicate]
  omega

end ViewBridge
