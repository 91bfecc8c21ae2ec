import ViewBridge.Value.Basic
import ViewBridge.Number.Style
import ViewBridge.Text.Quoted
/-!
# Printed values

How a value is written into a text: alone, or inside a collection, where texts are quoted and very large or
small doubles have an exponent.

Results:
* `print_text`: a text is printed as it is.
* `print_ofNat`: a natural number is printed as its digits.
-/
namespace ViewBridge.Value

/-- The word for a truth value. -/
def boolWord (b : Bool) : Chars := if b then "true".toList else "false".toList

mutual

/-- A value inside a collection. -/
def listed : Value → Chars
  | .undefined => "undefined".toList
  | .none => "none".toList
  | .bool b => boolWord b
  | .int n => Text.ofInt n
  | .float x => FloatStyle.listed.render x
  | .text _ s => Text.quoted s
  | .seq items => '[' :: listedItems items ++ [']']
  | .series items => '[' :: listedItems items ++ [']']
  | .map members => '\x7b' :: listedMembers members ++ ['\x7d']
  | .callable name => name

/-- Items with commas between them. -/
def listedItems : List Value → Chars
  | [] => []
  | [v] => listed v
  | v :: w :: vs => listed v ++ ',' :: ' ' :: listedItems (w :: vs)

/-- Members with commas between them. -/
def listedMembers : List (Value × Value) → Chars
  | [] => []
  | [(k, v)] => listed k ++ ':' :: ' ' :: listed v
  | (k, v) :: m :: ms => listed k ++ ':' :: ' ' :: listed v ++ ',' :: ' ' :: listedMembers (m :: ms)

end

/-- A value alone; one that is undefined leaves no trace. -/
def print : Value → Chars
  | .undefined => []
  | .float x => FloatStyle.printed.render x
  | .text _ s => s
  | v => listed v

/-- The text of a value as the legacy helpers take it: what is missing is empty. -/
def legacyText (v : Value) : Chars := if v.isMissing then [] else v.print

theorem print_text (safe : Bool) (s : Chars) : print (.text safe s) = s := rfl

theorem print_ofNat (n : Nat) : print (ofNat n) = Text.ofNat n := rfl

end ViewBridge.Value
