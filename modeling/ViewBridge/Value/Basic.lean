import ViewBridge.Text.Basic
/-!
# Template values

What a template computes with. A text may be marked safe, which means that it is markup already and is not
escaped again; a series is a sequence that is produced item by item; a map holds its members in the order
of their keys; a helper's name is a value too, though nothing can be done with it but call it.

Results:
* `isTrue_ofChars`: a text is true exactly when it is not empty.
-/
namespace ViewBridge

/-- A value of a template. -/
inductive Value where
  | undefined
  | none
  | bool (b : Bool)
  | int (n : Int)
  | float (x : Float)
  | text (safe : Bool) (s : Chars)
  | seq (items : List Value)
  | series (items : List Value)
  | map (members : List (Value × Value))
  | callable (name : Chars)
deriving Inhabited

namespace Value

/-- A plain text. -/
def ofChars (s : Chars) : Value := .text false s

/-- A text that is markup already. -/
def safeText (s : Chars) : Value := .text true s

/-- A sequence of plain texts. -/
def ofTexts (ss : List Chars) : Value := .seq (ss.map ofChars)

/-- A natural number. -/
def ofNat (n : Nat) : Value := .int n

/-- The kinds of values, in the order in which values of different kinds are ordered. -/
inductive Kind where
  | undefined
  | none
  | bool
  | number
  | string
  | seq
  | map
  | series
  | callable
deriving DecidableEq, Repr

namespace Kind

/-- The name of a kind. -/
def name : Kind → Chars
  | undefined => "Undefined".toList
  | none => "None".toList
  | bool => "Bool".toList
  | number => "Number".toList
  | string => "String".toList
  | seq => "Seq".toList
  | map => "Map".toList
  | series => "Iterable".toList
  | callable => "Plain".toList

/-- The place of a kind in the order. -/
def rank : Kind → Nat
  | undefined => 0
  | none => 1
  | bool => 2
  | number => 3
  | string => 4
  | seq => 5
  | map => 6
  | series => 7
  | callable => 8

end Kind

/-- The kind of a value. -/
def kind : Value → Kind
  | .undefined => .undefined
  | .none => .none
  | .bool _ => .bool
  | .int _ | .float _ => .number
  | .text .. => .string
  | .seq _ => .seq
  | .series _ => .series
  | .map _ => .map
  | .callable _ => .callable

/-- Whether a condition holds: zeros, empty texts and empty collections do not, nor does what is missing. -/
def isTrue : Value → Bool
  | .undefined | .none => false
  | .bool b => b
  | .int n => n != 0
  | .float x => x != 0.0
  | .text _ s => !s.isEmpty
  | .seq items | .series items => !items.isEmpty
  | .map members => !members.isEmpty
  | .callable _ => true

theorem isTrue_ofChars (s : Chars) : (ofChars s).isTrue = true ↔ s ≠ [] := by
  cases s <;> simp [ofChars, isTrue]

/-- Whether a value is missing: undefined or none. -/
def isMissing : Value → Bool
  | .undefined | .none => true
  | _ => false

/-- Whether a value is a text marked safe. -/
def isSafe : Value → Bool
  | .text safe _ => safe
  | _ => false

/-- The truth value as a number. -/
def ofBit (b : Bool) : Int := if b then 1 else 0

/-- Whether a value is a sequence or a map. -/
def isArray : Value → Bool
  | .seq _ | .map _ => true
  | _ => false

end Value
end ViewBridge
