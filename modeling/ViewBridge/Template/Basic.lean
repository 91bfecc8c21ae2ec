import ViewBridge.Value.Operator
/-!
# Templates

A template is a sequence of statements over expressions. Only the leaves of an expression know their line;
a failure is reported on the line of the last leaf that was needed to get there.

Results:
* `lastLine_binary`, `lastLine_member`: where operations and attributes are reported.
-/
namespace ViewBridge.Template

/-- An expression. Comparisons stand in chains, each link with its operator and whether it is negated. -/
inductive Expr where
  | const (line : Nat) (v : Value)
  | var (line : Nat) (name : Chars)
  | list (line : Nat) (items : List Expr)
  | map (line : Nat) (members : List (Expr × Expr))
  | not (e : Expr)
  | neg (e : Expr)
  | binary (op : Operator) (a b : Expr)
  | compare (a : Expr) (links : List ((Operator × Bool) × Expr))
  | both (a b : Expr)
  | either (a b : Expr)
  | cond (test yes no : Expr)
  | member (e : Expr) (name : Chars)
  | item (e index : Expr)
  | call (line : Nat) (name : Chars) (args : List Expr)
  | method (e : Expr) (name : Chars) (args : List Expr)
  | apply (e : Expr) (args : List Expr)
  | slice (e start stop step : Expr)
  | filter (e : Expr) (name : Chars) (args : List Expr) (options : List (Chars × Expr))
  | passes (e : Expr) (name : Chars) (args : List Expr)
deriving Inhabited

namespace Expr

mutual

/-- The line of the last leaf of an expression. -/
def lastLine : Expr → Nat
  | .const line _ => line
  | .var line _ => line
  | .list line items => lastLineOf line items
  | .map line members => lastLineOfMembers line members
  | .not e => lastLine e
  | .neg e => lastLine e
  | .binary _ _ b => lastLine b
  | .compare a links => lastLineOfLinks (lastLine a) links
  | .both _ b => lastLine b
  | .either _ b => lastLine b
  | .cond _ _ no => lastLine no
  | .member e _ => lastLine e
  | .item _ index => lastLine index
  | .call line _ args => lastLineOf line args
  | .method e _ args => lastLineOf (lastLine e) args
  | .apply e args => lastLineOf (lastLine e) args
  | .slice _ _ _ step => lastLine step
  | .filter e _ args options => lastLineOfOptions (lastLineOf (lastLine e) args) options
  | .passes e _ args => lastLineOf (lastLine e) args

/-- The line of the last leaf of several expressions; `line` if there are none. -/
def lastLineOf (line : Nat) : List Expr → Nat
  | [] => line
  | e :: es => lastLineOf (lastLine e) es

/-- The line of the last leaf of members. -/
def lastLineOfMembers (line : Nat) : List (Expr × Expr) → Nat
  | [] => line
  | (_, v) :: ms => lastLineOfMembers (lastLine v) ms

/-- The line of the last leaf of arguments by name. -/
def lastLineOfOptions (line : Nat) : List (Chars × Expr) → Nat
  | [] => line
  | (_, e) :: options => lastLineOfOptions (lastLine e) options

/-- The line of the last leaf of the links of a chain. -/
def lastLineOfLinks (line : Nat) : List ((Operator × Bool) × Expr) → Nat
  | [] => line
  | (_, e) :: links => lastLineOfLinks (lastLine e) links

end

theorem lastLine_binary (op : Operator) (a b : Expr) : (binary op a b).lastLine = b.lastLine := by
  rw [lastLine]

theorem lastLine_member (e : Expr) (name : Chars) : (member e name).lastLine = e.lastLine := by
  rw [lastLine]

/-- The value of a constant. -/
def constant? : Expr → Option Value
  | .const _ v => some v
  | _ => none

/-- A list; one of constants is a constant. -/
def ofItems (line : Nat) (items : List Expr) : Expr :=
  match items.mapM constant? with
  | some vs => .const line (.seq vs)
  | none => .list line items

/-- A map; one of constants is a constant. -/
def ofMembers (line : Nat) (members : List (Expr × Expr)) : Expr :=
  match members.mapM fun m => (constant? m.1).bind fun k => (constant? m.2).map fun v => (k, v) with
  | some ms => .const line (.map (Value.sortMembers ms))
  | none => .map line members

/-- A call of what an expression names: a helper, a method, or a value. -/
def ofCall (e : Expr) (args : List Expr) : Expr :=
  match e with
  | .var line name => .call line name args
  | .member e name => .method e name args
  | e => .apply e args

end Expr

/-- What a loop or an assignment binds. Nothing can be bound inside of a value. -/
inductive Target where
  | name (s : Chars)
  | several (line : Nat) (targets : List Target)
  | inside (line : Nat)

/-- A filter with its arguments, without what it is applied to. -/
structure Filtering where
  name : Chars
  args : List Expr
  options : List (Chars × Expr)

/-- An expression, filtered. -/
def Filtering.over (e : Expr) (f : Filtering) : Expr := .filter e f.name f.args f.options

/-- A statement. A loop may have a condition on its items; a body may be run with names of its own, under
another escaping, or for the sake of the text that it writes. -/
inductive Stmt where
  | data (s : Chars)
  | output (e : Expr)
  | branch (test : Expr) (yes no : List Stmt)
  | loop (target : Target) (source : Expr) (condition : Option Expr) (body otherwise : List Stmt)
  | assign (target : Target) (e : Expr)
  | capture (target : Target) (line : Nat) (filters : List Filtering) (body : List Stmt)
  | filtered (line : Nat) (filters : List Filtering) (body : List Stmt)
  | scoped (bindings : List (Target × Expr)) (body : List Stmt)
  | escaped (mode : Expr) (body : List Stmt)
  | effect (e : Expr)
  | insertion (name : Expr) (lenient : Bool)
  | leave
  | next

end ViewBridge.Template
