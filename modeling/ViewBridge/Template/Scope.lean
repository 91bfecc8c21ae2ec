import ViewBridge.Table
import ViewBridge.Template.Basic
import ViewBridge.Template.Filter
/-!
# Scopes

A template runs inside nested frames. The outermost frame sees the values that the template is rendered
with, every loop opens a frame of its own, and a name is looked up from the innermost frame outwards. A name
that no frame knows may be that of a helper.

Results:
* `lookup_bind_self`, `lookup_bind_of_ne`: binding a name changes that name alone.
* `callNamed_of_disabled`: a helper that is not enabled cannot be called.
-/
namespace ViewBridge.Template

/-- How far a loop is. -/
structure Cycle where
  index : Nat
  length : Nat
  previous : Value
  following : Value

/-- What a loop tells about itself. -/
def Cycle.value (c : Cycle) : Value :=
  .ofNamed [("index".toList, .ofNat (c.index + 1)), ("index0".toList, .ofNat c.index),
    ("length".toList, .ofNat c.length), ("revindex".toList, .ofNat (c.length - c.index)),
    ("revindex0".toList, .ofNat (c.length - c.index - 1)), ("first".toList, .bool (c.index == 0)),
    ("last".toList, .bool (c.index + 1 == c.length)), ("depth".toList, .ofNat 1),
    ("depth0".toList, .ofNat 0), ("previtem".toList, c.previous), ("nextitem".toList, c.following)]

/-- The names of one level of a running template. -/
structure Frame where
  locals : List (Chars × Value) := []
  cycle : Option Cycle := none
  context : Value := .undefined

namespace Frame

/-- The value of a name in a frame: a bound name, the loop itself, or a value of the context. -/
def lookup (f : Frame) (name : Chars) : Option Value :=
  match f.locals.lookup name with
  | some v => some v
  | none =>
    match f.cycle with
    | some c => if name = "loop".toList then some c.value else none
    | none =>
      match f.context.member name with
      | .undefined => none
      | v => some v

/-- The frame with a name bound to a value. -/
def bind (f : Frame) (name : Chars) (v : Value) : Frame :=
  { f with locals := Table.put f.locals name v }

theorem lookup_bind_self (f : Frame) (name : Chars) (v : Value) :
    (f.bind name v).lookup name = some v := by
  simp [lookup, bind, Table.lookup_put]

theorem lookup_bind_of_ne (f : Frame) {name other : Chars} (h : other ≠ name) (v : Value) :
    (f.bind name v).lookup other = f.lookup other := by
  simp only [lookup, bind, Table.lookup_put, h, ↓reduceIte]

end Frame

/-- The value of a name in frames, the innermost first. -/
def lookupIn (frames : List Frame) (name : Chars) : Option Value :=
  frames.findSome? fun f => f.lookup name

/-- What templates can call, and what their helpers know. -/
structure Toolbox where
  enabled : List Helper
  context : HelperContext

namespace Toolbox

/-- The enabled helper with a name. -/
def helper? (t : Toolbox) (name : Chars) : Option Helper := t.enabled.find? fun h => h.name == name

/-- Numbers from a bound to another in steps, up to a hundred thousand of them. -/
def counting : Arguments Value := do
  let first ← Arguments.required (Arguments.natural 32)
  let last ← Arguments.optional (Arguments.natural 32)
  let step ← Arguments.optional (Arguments.natural 32)
  Arguments.done
  let (low, high) := match last with
    | some last => (first, last)
    | none => (0, first)
  let step := step.getD 1
  let length := if step = 0 then 0 else (high - low + step - 1) / step
  if step = 0 ∨ 100000 < length then Filter.refused
  else pure (.series ((List.range length).map fun i => .ofNat (low + i * step)))

/-- A map of the members of another one and of further ones. -/
def dictionary : Arguments Value := do
  let first ← Arguments.optional Arguments.any
  let further ← Arguments.optional Arguments.any
  Arguments.done
  match first.getD (.map []), further.getD (.map []) with
  | .map ms, .map ns => pure (.map (Value.sortMembers (ms ++ ns)))
  | _, _ => Filter.refused

/-- The functions that every template has. -/
def globals : List (String × Arguments Value) := [("range", counting), ("dict", dictionary)]

/-- The function with a name that every template has. -/
def global? (name : Chars) : Option (Arguments Value) :=
  (globals.find? fun entry => entry.1.toList == name).map (·.2)

/-- The value of a name that is a function. -/
def function? (t : Toolbox) (name : Chars) : Option Value :=
  if (t.helper? name).isSome || (global? name).isSome then some (.callable name) else none

/-- Call a function by its own name. -/
def callNamed (t : Toolbox) (name : Chars) (args : List Value) : Except RenderError Value :=
  match t.helper? name with
  | some h => h.call t.context args
  | none =>
    match global? name with
    | some reading => reading.run args
    | none => .error { kind := .unknownFunction }

/-- Call a value. -/
def callValue (t : Toolbox) (v : Value) (args : List Value) : Except RenderError Value :=
  match v with
  | .callable name => t.callNamed name args
  | _ => .error Value.invalid

theorem helper?_eq_none {t : Toolbox} {h : Helper} (hd : h ∉ t.enabled) : t.helper? h.name = none := by
  simp only [helper?, List.find?_eq_none, beq_iff_eq]
  intro g hg hn
  have := Helper.ofName?_name g
  rw [hn, Helper.ofName?_name h] at this
  simp only [Option.some.injEq] at this
  exact hd (this ▸ hg)

theorem callNamed_of_disabled {t : Toolbox} {h : Helper} (hd : h ∉ t.enabled) (args : List Value) :
    t.callNamed h.name args = .error { kind := .unknownFunction } := by
  have hn : global? h.name = none := by cases h <;> rfl
  simp only [callNamed, helper?_eq_none hd, hn]

end Toolbox

/-- What an expression can see: the frames, the functions, and the template it stands in. -/
structure Scope where
  frames : List Frame
  tools : Toolbox
  template : Chars
  escaping : Escaping

namespace Scope

/-- How the escaping filter escapes: as the output is escaped here, or else as that of the template is. -/
def filterMode (s : Scope) : Escaping :=
  if s.escaping = .plain then Escaping.ofName s.template else s.escaping

/-- The value of a name. -/
def lookup? (s : Scope) (name : Chars) : Option Value :=
  (lookupIn s.frames name).or (s.tools.function? name)

/-- The names that are called for purposes of the language itself. -/
def isReservedCall (name : Chars) : Bool := name == "super".toList || name == "loop".toList

/-- Call what a name stands for. -/
def call (s : Scope) (name : Chars) (args : List Value) : Except RenderError Value :=
  if isReservedCall name then .error Value.invalid
  else
    match s.lookup? name with
    | some v => s.tools.callValue v args
    | none => .error { kind := .unknownFunction }

/-- Call a method of a value; only maps have any. -/
def callMethod (s : Scope) (v : Value) (name : Chars) (args : List Value) : Except RenderError Value :=
  match v with
  | .map members =>
    match Value.get? (.ofChars name) members with
    | some f => s.tools.callValue f args
    | none => .error { kind := .unknownMethod }
  | _ => .error { kind := .unknownMethod }

/-- What the loop around answers when it is asked to take turns: its rounds go through the arguments again and
again. -/
def turn? (s : Scope) (e : Expr) (name : Chars) (args : List Value) : Option Value :=
  match e with
  | .var _ loop =>
    if loop = "loop".toList ∧ name = "cycle".toList then
      (s.frames.findSome? Frame.cycle).map fun c => args[c.index % args.length]?.getD .undefined
    else none
  | _ => none

/-- A result, its failure placed on a line. -/
def located {α : Type} (s : Scope) (line : Nat) (r : Except RenderError α) : Except RenderError α :=
  match r with
  | .ok a => .ok a
  | .error e => .error (e.at_ ⟨s.template, line⟩)

end Scope
end ViewBridge.Template
