import ViewBridge.Value.Operator
/-!
# Arguments

A helper or filter takes its arguments one by one, each in the form it needs, and says when it has all it
wants. An argument that is not there is missing unless it is optional; what is left at the end is too much.

Results:
* `done_of_ne_nil`: an argument too many is refused.
* `optional_missing`: an optional argument that is undefined or none counts as absent.
-/
namespace ViewBridge

/-- A reading of arguments; what is left of them is the state. -/
abbrev Arguments (α : Type) := StateT (List Value) (Except RenderError) α

namespace Arguments

/-- A form that a value is needed in. -/
abbrev Form (α : Type) := Value → Except RenderError α

/-- Any value, as it is. -/
def any : Form Value := .ok

/-- What a value prints. -/
def printed : Form Chars := fun v => .ok v.print

/-- An integer within bounds. -/
def integer (lo hi : Int) : Form Int := fun v =>
  match v.bounded? lo hi with
  | some n => .ok n
  | none => .error Value.invalid

/-- An integer of 64 bits. -/
def int64 : Form Int := integer int64Min int64Max

/-- An integer of 32 bits. -/
def int32 : Form Int := integer (-(Nat.pow 2 31)) (Nat.pow 2 31 - 1)

/-- A natural number below a power of two. -/
def natural (bits : Nat) : Form Nat := fun v => (integer 0 (Nat.pow 2 bits - 1) v).map Int.toNat

/-- The next argument in a form. -/
def required {α : Type} (form : Form α) : Arguments α := fun args =>
  match args with
  | [] => .error { kind := .missingArgument }
  | v :: rest => (form v).map fun a => (a, rest)

/-- The next argument in a form, if it is there and not missing. -/
def optional {α : Type} (form : Form α) : Arguments (Option α) := fun args =>
  match args with
  | [] => .ok (none, [])
  | v :: rest => if v.isMissing then .ok (none, rest) else (form v).map fun a => (some a, rest)

/-- All arguments that are left. -/
def remaining : Arguments (List Value) := fun args => .ok (args, [])

/-- The text of the next argument, empty if it is undefined or none. -/
def legacyText : Arguments Chars := Value.legacyText <$> required any

/-- The end of the arguments. -/
def done : Arguments Unit := fun args =>
  match args with
  | [] => .ok ((), [])
  | _ :: _ => .error { kind := .tooManyArguments }

/-- The result of a reading. -/
def run {α : Type} (reading : Arguments α) (args : List Value) : Except RenderError α :=
  (reading args).map Prod.fst

theorem done_of_ne_nil {args : List Value} (h : args ≠ []) :
    done args = .error { kind := .tooManyArguments } := by
  cases args with
  | nil => exact absurd rfl h
  | cons => rfl

theorem optional_missing {α : Type} (form : Form α) {v : Value} (h : v.isMissing = true)
    (rest : List Value) : optional form (v :: rest) = .ok (none, rest) := by
  simp [optional, h]

end Arguments
end ViewBridge
