import ViewBridge.Json.Basic
import ViewBridge.Number.Reading
/-!
# YAML documents

A document is a tree of scalars, sequences and mappings. A scalar keeps its text and whether it was written
plainly: a quoted scalar is always text, a plain one may also be null, a truth value or a number, by the
rules of the core schema.

Results:
* `kind_of_quoted`: a quoted scalar is text.
-/
namespace ViewBridge

/-- A YAML document. -/
inductive Yaml where
  | scalar (plain : Bool) (text : Chars)
  | seq (items : List Yaml)
  | map (members : List (Yaml × Yaml))
deriving Inhabited

namespace Yaml

/-- An empty node. -/
def empty : Yaml := .scalar true []

/-- The spellings of null. -/
def isNull (s : Chars) : Bool :=
  s == [] || ["~", "null", "Null", "NULL"].any fun w => w.toList == s

/-- The truth value that a text spells. -/
def readBool? (s : Chars) : Option Bool :=
  if ["true", "True", "TRUE"].any fun w => w.toList == s then some true
  else if ["false", "False", "FALSE"].any fun w => w.toList == s then some false
  else none

/-- Whether a text is digits that start with a needless zero, which make no number. -/
def isZeroPadded (s : Chars) : Bool :=
  let ds := (takeSign s).2
  ds.length > 1 && ds.head? == some '0' && ds.all Text.isDigit

/-- The magnitude that digits with an optional base mark write. -/
def readMagnitude? (s : Chars) : Option Nat :=
  match s with
  | '0' :: 'x' :: ds => Text.readNat? 16 ds
  | '0' :: 'o' :: ds => Text.readNat? 8 ds
  | '0' :: 'b' :: ds => Text.readNat? 2 ds
  | ds => if ds ≠ [] ∧ ds.all Text.isDigit then some (digitsValue ds) else none

/-- The integer that a plain scalar writes. -/
def readInt? (s : Chars) : Option Int :=
  if isZeroPadded s then none
  else
    let (neg, ds) := takeSign s
    (readMagnitude? ds).map fun n => if neg then -(n : Int) else (n : Int)

/-- The double that a plain scalar writes. -/
def readFloat? (s : Chars) : Option Float :=
  let body := match s with
    | '+' :: r => r
    | r => r
  if [".inf", ".Inf", ".INF"].any fun w => w.toList == body then some (Binary.toFloat (.infinite false))
  else if ["-.inf", "-.Inf", "-.INF"].any fun w => w.toList == s then
    some (Binary.toFloat (.infinite true))
  else if [".nan", ".NaN", ".NAN"].any fun w => w.toList == s then some (Binary.toFloat .nan)
  else if isZeroPadded s ∨ (s.head? = some '+' ∧ (body.head? = some '+' ∨ body.head? = some '-')) then
    none
  else
    match ViewBridge.readFloat? body with
    | some x =>
      match Binary.ofFloat x with
      | .finite .. => some x
      | _ => none
    | none => none

/-- What a scalar stands for. -/
inductive Kind where
  | null
  | bool (b : Bool)
  | int (n : Int)
  | float (x : Float)
  | text (s : Chars)

/-- What a scalar stands for. -/
def kind (plain : Bool) (s : Chars) : Kind :=
  if !plain then .text s
  else if isNull s then .null
  else match readBool? s with
    | some b => .bool b
    | none =>
      match readInt? s with
      | some n => .int n
      | none =>
        match readFloat? s with
        | some x => .float x
        | none => .text s

theorem kind_of_quoted (s : Chars) : kind false s = .text s := rfl

/-- A character of an identifier, after which a comment mark is not one. -/
def isSpace (c : Char) : Bool := c == ' ' || c == '\t'

end Yaml
end ViewBridge
