import ViewBridge.Helper.Argument
import ViewBridge.Template.Filter.Collection
/-!
# Tests

What templates can ask about a value. A test takes the value as its first argument.

Results:
* `holds_defined`: exactly what is not undefined is defined.
* `apply_of_none`: a test that there is not cannot be asked.
-/
namespace ViewBridge.Template.Test

open Arguments

/-- A test of one value. -/
def unary (p : Value → Bool) : Arguments Bool := do
  let v ← required any
  done
  pure (p v)

/-- A test of a value against another one. -/
def binary (p : Value → Value → Bool) : Arguments Bool := do
  let v ← required any
  let other ← required any
  done
  pure (p v other)

/-- A test of two printed texts. -/
def textual (p : Chars → Chars → Bool) : Arguments Bool := do
  let s ← required printed
  let other ← required printed
  done
  pure (p s other)

/-- A test of a text, which must be one. -/
def onText (p : Chars → Bool) : Arguments Bool := do
  match ← required any with
  | .text _ s => do
    done
    pure (p s)
  | _ => throw Value.invalid

/-- Whether a value is an integer that leaves a remainder as wanted when it is halved. -/
def halves (p : Int → Bool) (v : Value) : Bool :=
  match v.bounded? Value.int128Min Value.int128Max with
  | some n => p (n % 2)
  | none => false

/-- Whether a number is a multiple of another one. -/
def isMultiple (v other : Value) : Bool :=
  match v.numeric?, other.numeric? with
  | some (.int m), some (.int n) => m % n == 0
  | some x, some y => Binary.remainder x.toFloat y.toFloat == 0.0
  | _, _ => false

/-- Whether a character is a letter of a case: one that its case mapping leaves alone. -/
def inCase (mapping : Char → Chars) (c : Char) : Bool :=
  Text.inRanges Text.casedTable c.toNat && mapping c == [c]

/-- Whether two values are the same thing: an integer and a double never are. -/
def isSame (v other : Value) : Bool :=
  v.kind = other.kind && isInteger v == isInteger other && v.same other
where
  /-- Whether a value is an integer. -/
  isInteger : Value → Bool
    | .int _ => true
    | _ => false

/-- Whether a value is of a kind. -/
def isKind (k : Value.Kind) (v : Value) : Bool := v.kind = k

/-- The tests by name; `knownFilter` tells the names of filters. -/
def table (knownFilter knownTest : Chars → Bool) : List (String × Arguments Bool) :=
  [("defined", unary fun v => !isKind .undefined v),
    ("undefined", unary (isKind .undefined)),
    ("none", unary (isKind .none)),
    ("safe", unary Value.isSafe),
    ("escaped", unary Value.isSafe),
    ("odd", unary (halves (· == 1))),
    ("even", unary (halves (· == 0))),
    ("divisibleby", binary isMultiple),
    ("number", unary (isKind .number)),
    ("integer", unary isSame.isInteger),
    ("int", unary isSame.isInteger),
    ("float", unary fun v => isKind .number v && !isSame.isInteger v),
    ("string", unary (isKind .string)),
    ("sequence", unary (isKind .seq)),
    ("mapping", unary (isKind .map)),
    ("boolean", unary (isKind .bool)),
    ("iterable", unary fun v => (Filter.walk? v).isSome),
    ("startingwith", textual fun s lead => Text.startsWith lead s),
    ("endingwith", textual fun s tail => Text.endsWith tail s),
    ("lower", onText fun s => s.all (inCase Text.lowerChar)),
    ("upper", onText fun s => s.all (inCase Text.upperChar)),
    ("sameas", binary isSame),
    ("true", unary fun v => v.isTrue && isKind .bool v),
    ("false", unary fun v => !v.isTrue && isKind .bool v),
    ("in", binary fun v other =>
      match Value.within v other with
      | .ok b => b
      | .error _ => false),
    ("filter", onText knownFilter),
    ("test", onText knownTest)] ++
  ([("eq", Operator.same), ("equalto", .same), ("==", .same), ("ne", .differs), ("!=", .differs),
      ("lt", .less), ("lessthan", .less), ("<", .less), ("le", .lessEq), ("<=", .lessEq),
      ("gt", .greater), ("greaterthan", .greater), (">", .greater), ("ge", .greaterEq),
      (">=", .greaterEq)] : List (String × Operator)).map fun (name, op) =>
    (name, binary fun v other =>
      match Value.apply op v other with
      | .ok r => r.isTrue
      | .error _ => false)

/-- The names of the tests. -/
def names : List Chars := (table (fun _ => false) fun _ => false).map fun entry => entry.1.toList

/-- The test with a name. -/
def find? (knownFilter : Chars → Bool) (name : Chars) : Option (Arguments Bool) :=
  ((table knownFilter names.contains).find? fun entry => entry.1.toList == name).map (·.2)

/-- The outcome of a test; the arguments start with the tested value. -/
def apply (knownFilter : Chars → Bool) (name : Chars) (args : List Value) : Except RenderError Bool :=
  match find? knownFilter name with
  | some reading => reading.run args
  | none => .error { kind := .unknownTest }

theorem apply_of_none {knownFilter : Chars → Bool} {name : Chars} (h : find? knownFilter name = none)
    (args : List Value) : apply knownFilter name args = .error { kind := .unknownTest } := by
  simp only [apply, h]

theorem holds_defined (knownFilter : Chars → Bool) (v : Value) :
    apply knownFilter "defined".toList [v] = .ok (decide (v.kind ≠ .undefined)) := by
  cases v <;> rfl

end ViewBridge.Template.Test
