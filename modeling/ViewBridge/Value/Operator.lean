import ViewBridge.Value.Coerce
/-!
# Operators

Arithmetic is exact on integers of 128 bits and fails beyond them; a double on either side makes the result
a double. Texts and sequences can be joined and repeated. Whatever does not fit is an invalid operation.

Results:
* `power_eq`: powers are those of the integers.
* `concat_print`: joining two values with a tilde joins what they print.
* `item_none_of_missing`: nothing is found in what is missing.
-/
namespace ViewBridge

/-- The operators between two values. -/
inductive Operator where
  | add
  | sub
  | mul
  | div
  | wholeDiv
  | rem
  | pow
  | concat
  | same
  | differs
  | less
  | lessEq
  | greater
  | greaterEq
  | within
deriving DecidableEq, Repr

namespace Value

/-- The failure of an operation on values that it does not apply to. -/
def invalid : RenderError := { kind := .invalidOperation }

/-- The least 128-bit integer. -/
def int128Min : Int := -(Nat.pow 2 127)

/-- The greatest 128-bit integer. -/
def int128Max : Int := Nat.pow 2 127 - 1

/-- An integer, if it has at most 128 bits. -/
def exact (n : Int) : Except RenderError Value :=
  if int128Min ≤ n ∧ n ≤ int128Max then .ok (.int n) else .error invalid

/-- Whether an integer can be an operand. -/
def isOperand (n : Int) : Bool := decide (int128Min ≤ n ∧ n ≤ int128Max)

/-- Two numbers under an operation that has a form for integers and one for doubles. -/
def arithmetic (ints : Int → Int → Except RenderError Value) (floats : Float → Float → Float)
    (a b : Value) : Except RenderError Value :=
  match a.numeric?, b.numeric? with
  | some (.int m), some (.int n) => if isOperand m && isOperand n then ints m n else .error invalid
  | some x, some y => .ok (.float (floats x.toFloat y.toFloat))
  | _, _ => .error invalid

/-- The items of a sequence or a series. -/
def items? : Value → Option (List Value)
  | .seq items | .series items => some items
  | _ => Option.none

/-- A value as an integer of a given range; truth values and doubles without decimals are integers too. -/
def bounded? (lo hi : Int) (v : Value) : Option Int :=
  let within (n : Int) : Option Int := if lo ≤ n ∧ n ≤ hi then some n else Option.none
  match v with
  | .bool b => within (ofBit b)
  | .int n => within n
  | .float x =>
    let n := Binary.clamp int64Min int64Max (Binary.ofFloat x)
    if Binary.ofInt n == x then within n else Option.none
  | _ => Option.none

/-- A value as a count. -/
def count? (v : Value) : Option Nat := (v.bounded? 0 (Nat.pow 2 64 - 1)).map Int.toNat

/-- The sum of numbers; texts and sequences are joined. -/
def add (a b : Value) : Except RenderError Value :=
  match a, b with
  | .text _ s, .text _ t => .ok (ofChars (s ++ t))
  | a, b =>
    match a.items?, b.items? with
    | some xs, some ys => .ok (.series (xs ++ ys))
    | _, _ => arithmetic (fun m n => exact (m + n)) (· + ·) a b

/-- The product of numbers; a text or a sequence is repeated. -/
def mul (a b : Value) : Except RenderError Value :=
  let times (n : Value) (repeated : Nat → Value) : Except RenderError Value :=
    match n.count? with
    | some k => .ok (repeated k)
    | Option.none => .error invalid
  let repeatText (s : Chars) (k : Nat) : Value := ofChars (List.replicate k s).flatten
  let repeatItems (xs : List Value) (k : Nat) : Value := .series (List.replicate k xs).flatten
  match a, b with
  | .text _ s, n => times n (repeatText s)
  | n, .text _ s => times n (repeatText s)
  | a, b =>
    match a.items?, b.items? with
    | some xs, _ => times b (repeatItems xs)
    | _, some ys => times a (repeatItems ys)
    | _, _ => arithmetic (fun m n => exact (m * n)) (· * ·) a b

/-- The quotient of numbers, always a double. -/
def div (a b : Value) : Except RenderError Value :=
  match a.numeric?, b.numeric? with
  | some x, some y => .ok (.float (x.toFloat / y.toFloat))
  | _, _ => .error invalid

/-- The whole quotient: what is left over is not negative. -/
def wholeDiv (a b : Value) : Except RenderError Value :=
  arithmetic (fun m n => if n = 0 then .error invalid else exact (m / n)) Binary.wholeQuotient a b

/-- What a division leaves over: never negative for integers, in the sign of the dividend for doubles. -/
def rem (a b : Value) : Except RenderError Value :=
  arithmetic (fun m n => if n = 0 then .error invalid else exact (m % n)) Binary.remainder a b

/-- Whether a power of an integer can have at most 128 bits. -/
def powerFits (m : Int) (k : Nat) : Bool := m.natAbs ≤ 1 || k ≤ 127

/-- A power; those of one, zero and minus one hang on the parity of the exponent alone. -/
def power (m : Int) (k : Nat) : Int :=
  if m.natAbs ≤ 1 ∧ 2 < k then Int.pow m (2 - k % 2) else Int.pow m k

theorem power_eq (m : Int) (k : Nat) : power m k = Int.pow m k := by
  unfold power
  split
  · rename_i h
    have hm : m = 0 ∨ m = 1 ∨ m = -1 := by omega
    show m ^ (2 - k % 2) = m ^ k
    rcases hm with rfl | rfl | rfl
    · rw [Int.zero_pow (by omega), Int.zero_pow (by omega)]
    · rw [Int.one_pow, Int.one_pow]
    · conv => rhs; rw [← Nat.div_add_mod k 2, Int.pow_add, Int.pow_mul]
      rcases Nat.mod_two_eq_zero_or_one k with h | h <;> rw [h] <;> simp [Int.one_pow]
  · rfl

/-- A power; the exponent of an integer is a natural number of 32 bits. -/
def pow (a b : Value) : Except RenderError Value :=
  arithmetic
    (fun m n =>
      if 0 ≤ n ∧ n < Nat.pow 2 32 ∧ powerFits m n.toNat then exact (power m n.toNat) else .error invalid)
    Float.pow a b

/-- The negative of a number. -/
def neg : Value → Except RenderError Value
  | .int n => exact (-n)
  | .float x => .ok (.float (-x))
  | _ => .error invalid

/-- What two values print, joined. -/
def concat (a b : Value) : Value := ofChars (a.print ++ b.print)

theorem concat_print (a b : Value) : (concat a b).print = a.print ++ b.print := rfl

/-- Whether a value is found in a container. -/
def within (a container : Value) : Except RenderError Bool :=
  match container with
  | .undefined => .ok false
  | .text _ s => .ok (Text.contains a.print s)
  | .map members => .ok (get? a members).isSome
  | .seq items | .series items => .ok (items.any fun v => same v a)
  | .callable _ => .ok false
  | _ => .error invalid

/-- Two values under an operator. -/
def apply (op : Operator) (a b : Value) : Except RenderError Value :=
  match op with
  | .add => add a b
  | .sub => arithmetic (fun m n => exact (m - n)) (· - ·) a b
  | .mul => mul a b
  | .div => div a b
  | .wholeDiv => wholeDiv a b
  | .rem => rem a b
  | .pow => pow a b
  | .concat => .ok (concat a b)
  | .same => .ok (.bool (same a b))
  | .differs => .ok (.bool (!same a b))
  | .less => .ok (.bool (cmp a b == .lt))
  | .lessEq => .ok (.bool (cmp a b != .gt))
  | .greater => .ok (.bool (cmp a b == .gt))
  | .greaterEq => .ok (.bool (cmp a b != .lt))
  | .within => (within a b).map .bool

/-- The position that an index means among `n` items; a negative one counts from the end. -/
def position? (n : Nat) (index : Value) : Option Nat :=
  match index.bounded? int64Min int64Max with
  | some i =>
    if 0 ≤ i then some i.toNat
    else if i.natAbs ≤ n then some (n - i.natAbs)
    else Option.none
  | Option.none => Option.none

/-- The item of a collection at an index or a key, or the character of a text. -/
def item? (v index : Value) : Option Value :=
  match v with
  | .map members => get? index members
  | .seq items | .series items => (position? items.length index).bind fun i => items[i]?
  | .text _ s => (position? s.length index).bind fun i => s[i]?.map fun c => ofChars [c]
  | _ => Option.none

/-- The item of a collection; what is not there is undefined. -/
def item (v index : Value) : Value := (v.item? index).getD .undefined

/-- The member of a map with a name; what is not there is undefined. -/
def member (v : Value) (name : Chars) : Value :=
  match v with
  | .map members => (get? (ofChars name) members).getD .undefined
  | _ => .undefined

theorem item_none_of_missing {v index : Value} (h : v.isMissing = true) : v.item index = .undefined := by
  cases v <;> first | rfl | cases h

end Value
end ViewBridge
