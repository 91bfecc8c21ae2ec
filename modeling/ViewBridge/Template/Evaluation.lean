import ViewBridge.Template.Scope
import ViewBridge.Value.Slice
/-!
# Evaluating expressions

An expression has a value in a scope, or a failure on a line. What is not there is undefined, and so is
everything inside it. Arguments are evaluated before what they are given to is looked up.

Results:
* `eval_member`: an attribute is that of the value.
* `eval_filter`: a filter is applied to the value and the arguments.
-/
namespace ViewBridge.Template.Expr

mutual

/-- The value of an expression. -/
def eval (s : Scope) : Expr → Except RenderError Value
  | .const _ v => .ok v
  | .var _ name => .ok ((s.lookup? name).getD .undefined)
  | .list _ items => (evalAll s items).map .seq
  | .map _ members => (evalMembers s members).map fun ms => .map (Value.sortMembers ms)
  | .not e => (eval s e).map fun v => .bool !v.isTrue
  | .neg e => do
    let v ← eval s e
    s.located e.lastLine v.neg
  | .binary op a b => do
    let x ← eval s a
    let y ← eval s b
    s.located b.lastLine (Value.apply op x y)
  | .compare a links => do
    let x ← eval s a
    evalLinks s x links
  | .both a b => do
    let x ← eval s a
    if x.isTrue then eval s b else pure x
  | .either a b => do
    let x ← eval s a
    if x.isTrue then pure x else eval s b
  | .cond test yes no => do
    let t ← eval s test
    if t.isTrue then eval s yes else eval s no
  | .member e name => (eval s e).map fun v => v.member name
  | .item e index => do
    let v ← eval s e
    let i ← eval s index
    pure (v.item i)
  | .call line name args => do
    let vs ← evalAll s args
    s.located (lastLineOf line args) (s.call name vs)
  | .method e name args => do
    let v ← eval s e
    let vs ← evalAll s args
    match s.turn? e name vs with
    | some turn => pure turn
    | none => s.located (lastLineOf e.lastLine args) (s.callMethod v name vs)
  | .apply e args => do
    let v ← eval s e
    let vs ← evalAll s args
    s.located (lastLineOf e.lastLine args) (s.tools.callValue v vs)
  | .slice e start stop step => do
    let v ← eval s e
    let i ← eval s start
    let j ← eval s stop
    let k ← eval s step
    s.located step.lastLine (v.slice i j k)
  | .filter e name args options => do
    let v ← eval s e
    let vs ← evalAll s args
    let os ← evalOptions s options
    s.located (lastLineOfOptions (lastLineOf e.lastLine args) options)
      (Filter.apply s.filterMode name (v :: vs) os)
  | .passes e name args => do
    let v ← eval s e
    let vs ← evalAll s args
    s.located (lastLineOf e.lastLine args)
      ((Test.apply Filter.isKnown name (v :: vs)).map .bool)

/-- The values of expressions. -/
def evalAll (s : Scope) : List Expr → Except RenderError (List Value)
  | [] => .ok []
  | e :: es => do
    let v ← eval s e
    let vs ← evalAll s es
    pure (v :: vs)

/-- The values of keys and members. -/
def evalMembers (s : Scope) : List (Expr × Expr) → Except RenderError (List (Value × Value))
  | [] => .ok []
  | (k, e) :: ms => do
    let key ← eval s k
    let v ← eval s e
    let vs ← evalMembers s ms
    pure ((key, v) :: vs)

/-- The values of arguments by name. -/
def evalOptions (s : Scope) : List (Chars × Expr) → Except RenderError (List (Chars × Value))
  | [] => .ok []
  | (name, e) :: options => do
    let v ← eval s e
    let vs ← evalOptions s options
    pure ((name, v) :: vs)

/-- Whether a value passes the links of a chain, each compared with the value before it. -/
def evalLinks (s : Scope) (x : Value) : List ((Operator × Bool) × Expr) → Except RenderError Value
  | [] => .ok (.bool true)
  | ((op, negated), e) :: links => do
    let y ← eval s e
    let r ← s.located e.lastLine (Value.apply op x y)
    if r.isTrue = negated then pure (.bool false) else evalLinks s y links

end

theorem eval_member (s : Scope) (e : Expr) (name : Chars) :
    eval s (.member e name) = (eval s e).map fun v => v.member name := by
  rw [eval]

theorem eval_filter {s : Scope} {e : Expr} {v : Value} (h : eval s e = .ok v) (name : Chars) :
    eval s (.filter e name [] []) = s.located e.lastLine (Filter.apply s.filterMode name [v] []) := by
  rw [eval, h, evalAll, evalOptions, lastLineOf, lastLineOfOptions]
  rfl

end ViewBridge.Template.Expr
