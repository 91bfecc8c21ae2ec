import ViewBridge.Value.Order
import ViewBridge.Value.Print
import ViewBridge.Number.Reading
import ViewBridge.Error
/-!
# Legacy coercions

The loose conversions that legacy templates rely on: every value counts as some number, and everything that
holds values, or holds nothing at all, can be looped over.

Results:
* `pairs_seq`: the pairs of a sequence are its items with their positions.
* `keys_length`: a collection has as many keys as values.
-/
namespace ViewBridge.Value

/-- Whether there is anything in a collection, as a number. -/
def occupied (isEmpty : Bool) : Int := if isEmpty then 0 else 1

/-- A value as a 64-bit integer: a number that does not fit is held within bounds as a double, texts are read
as far as they go. -/
def toInt : Value → Int
  | .int n =>
    if int64Min ≤ n ∧ n ≤ int64Max then n
    else Binary.clamp int64Min int64Max (Binary.ofFloat (Binary.ofInt n))
  | .float x => Binary.clamp int64Min int64Max (Binary.ofFloat x)
  | .bool b => ofBit b
  | .text _ s => leadingInt s
  | .seq items => occupied items.isEmpty
  | .map members => occupied members.isEmpty
  | _ => 0

/-- A value as a double. -/
def toFloat : Value → Float
  | .int n => Binary.ofInt n
  | .float x => x
  | .text _ s => leadingFloat s
  | v => Binary.ofInt v.toInt

/-- A double as a number: one that is whole and below `10^15` becomes an integer. -/
def number (x : Float) : Value :=
  match Binary.toInt? (Binary.ofFloat x) with
  | some n => if n.natAbs < Nat.pow 10 15 then .int n else .float x
  | Option.none => .float x

/-- The complaint about a value that cannot be looped over. -/
def notIterable (v : Value) : RenderError :=
  { kind := .invalidOperation,
    detail := some ("cannot iterate over a value of type ".toList ++ v.kind.name) }

/-- Positions from zero on. -/
def positions (n : Nat) : List Value := (List.range n).map ofNat

/-- The values of a collection. -/
def values (v : Value) : Except RenderError (List Value) :=
  match v with
  | .undefined | .none => .ok []
  | .map members => .ok (members.map (·.2))
  | .seq items | .series items => .ok items
  | _ => .error v.notIterable

/-- The keys of a map, or the positions in a sequence. -/
def keys (v : Value) : Except RenderError (List Value) :=
  match v with
  | .undefined | .none => .ok []
  | .map members => .ok (members.map (·.1))
  | .seq items | .series items => .ok (positions items.length)
  | _ => .error v.notIterable

/-- A key and its value as a sequence of two. -/
def pairOf (key value : Value) : Value := .seq [key, value]

/-- Keys with their values. -/
def pairs (v : Value) : Except RenderError (List Value) := do
  let keys ← v.keys
  let values ← v.values
  pure (List.zipWith pairOf keys values)

theorem keys_length {v : Value} {ks vs : List Value} (hk : v.keys = .ok ks) (hv : v.values = .ok vs) :
    ks.length = vs.length := by
  cases v <;> simp_all [keys, values, positions] <;> (subst hk; subst hv; simp)

theorem pairs_seq (items : List Value) :
    pairs (.seq items) = .ok (List.zipWith pairOf (positions items.length) items) := rfl

end ViewBridge.Value
