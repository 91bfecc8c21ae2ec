import Mathlib.Data.List.Forall2
import ViewBridge.Template.Rendering
/-!
# Names that are not read

A template can avoid a name: none of its expressions reads the name as a variable or calls it. The value of
an expression does not depend on a name that it avoids, nor on how its own template is called, if that is
escaped alike; only the places that failures tell of are others.

Results:
* `Frame.Alike.lookup`: in frames that differ in one name, every other one stands for the same.
* `Expr.toOption_eval`: in such surroundings an expression that avoids the name has the same value, or none.
* `avoids_filtering`: filters that avoid a name do so whatever they are applied to.
-/
namespace ViewBridge

/-! ## Values and failures -/

section
variable {ε α β : Type}

/-- Results with the same value: both fail, or they are the same. -/
theorem toOption_eq_cases {a b : Except ε α} (h : a.toOption = b.toOption) :
    (∃ e e', a = .error e ∧ b = .error e') ∨ ∃ v, a = .ok v ∧ b = .ok v := by
  cases a with
  | error e =>
    cases b with
    | error e' => exact .inl ⟨e, e', rfl, rfl⟩
    | ok w => cases h
  | ok v =>
    cases b with
    | error e' => cases h
    | ok w =>
      obtain rfl : v = w := Option.some.inj h
      exact .inr ⟨v, rfl, rfl⟩

theorem toOption_bind_congr {a b : Except ε α} {f g : α → Except ε β} (hab : a.toOption = b.toOption)
    (hfg : ∀ v, (f v).toOption = (g v).toOption) : (a >>= f).toOption = (b >>= g).toOption := by
  obtain ⟨e, e', rfl, rfl⟩ | ⟨v, rfl, rfl⟩ := toOption_eq_cases hab
  · rfl
  · exact hfg v

theorem toOption_map_congr {a b : Except ε α} (hab : a.toOption = b.toOption) (f : α → β) :
    (a.map f).toOption = (b.map f).toOption :=
  toOption_bind_congr hab fun _ => rfl

end

namespace Template

/-! ## Avoiding a name -/

namespace Expr

mutual

/-- Whether an expression avoids a name: it neither reads it as a variable nor calls it. -/
def avoids (x : Chars) : Expr → Bool
  | .const _ _ => true
  | .var _ name => name != x
  | .list _ items => avoidsAll x items
  | .map _ members => avoidsMembers x members
  | .not e => avoids x e
  | .neg e => avoids x e
  | .binary _ a b => avoids x a && avoids x b
  | .compare a links => avoids x a && avoidsLinks x links
  | .both a b => avoids x a && avoids x b
  | .either a b => avoids x a && avoids x b
  | .cond test yes no => avoids x test && avoids x yes && avoids x no
  | .member e _ => avoids x e
  | .item e index => avoids x e && avoids x index
  | .call _ name args => name != x && avoidsAll x args
  | .method e _ args => avoids x e && avoidsAll x args
  | .apply e args => avoids x e && avoidsAll x args
  | .slice e start stop step => avoids x e && avoids x start && avoids x stop && avoids x step
  | .filter e _ args options => avoids x e && avoidsAll x args && avoidsOptions x options
  | .passes e _ args => avoids x e && avoidsAll x args

/-- Whether several expressions avoid a name. -/
def avoidsAll (x : Chars) : List Expr → Bool
  | [] => true
  | e :: es => avoids x e && avoidsAll x es

/-- Whether keys and members avoid a name. -/
def avoidsMembers (x : Chars) : List (Expr × Expr) → Bool
  | [] => true
  | (k, v) :: ms => avoids x k && avoids x v && avoidsMembers x ms

/-- Whether arguments by name avoid a name. -/
def avoidsOptions (x : Chars) : List (Chars × Expr) → Bool
  | [] => true
  | (_, e) :: options => avoids x e && avoidsOptions x options

/-- Whether the links of a chain avoid a name. -/
def avoidsLinks (x : Chars) : List ((Operator × Bool) × Expr) → Bool
  | [] => true
  | (_, e) :: links => avoids x e && avoidsLinks x links

end

end Expr

/-- Whether a filter avoids a name. -/
def Filtering.avoids (x : Chars) (f : Filtering) : Bool := Expr.avoidsAll x f.args && Expr.avoidsOptions x f.options

/-- Filters that avoid a name do so whatever they are applied to. -/
theorem avoids_filtering {x : Chars} {filters : List Filtering} (h : filters.all (Filtering.avoids x) = true)
    {e : Expr} (he : e.avoids x = true) : (filters.foldl Filtering.over e).avoids x = true := by
  induction filters generalizing e with
  | nil => exact he
  | cons f filters ih =>
    simp only [List.all_cons, Filtering.avoids, Bool.and_eq_true] at h
    rw [List.foldl_cons]
    apply ih h.2
    simp only [Filtering.over, Expr.avoids, he, h.1.1, h.1.2, Bool.and_self]

/-! ## Frames and scopes -/

/-- Frames that differ at most in what a name stands for in the context. -/
structure Frame.Alike (x : Chars) (f g : Frame) : Prop where
  locals : f.locals = g.locals
  cycle : f.cycle = g.cycle
  context : ∀ name, name ≠ x → f.context.member name = g.context.member name

theorem Frame.Alike.refl (x : Chars) (f : Frame) : f.Alike x f := ⟨rfl, rfl, fun _ _ => rfl⟩

theorem Frame.Alike.lookup {x : Chars} {f g : Frame} (h : f.Alike x g) {name : Chars} (hname : name ≠ x) :
    f.lookup name = g.lookup name := by
  unfold Frame.lookup
  rw [h.locals, h.cycle, h.context name hname]

/-- Frames one by one that differ at most in a name. -/
abbrev FramesAlike (x : Chars) : List Frame → List Frame → Prop := List.Forall₂ (Frame.Alike x)

namespace FramesAlike

variable {x : Chars} {frames frames' : List Frame}

theorem lookupIn (h : FramesAlike x frames frames') {name : Chars} (hname : name ≠ x) :
    Template.lookupIn frames name = Template.lookupIn frames' name := by
  unfold Template.lookupIn
  induction h with
  | nil => rfl
  | cons hf _ ih => rw [List.findSome?_cons, List.findSome?_cons, hf.lookup hname, ih]

theorem cycle (h : FramesAlike x frames frames') : frames.findSome? Frame.cycle = frames'.findSome? Frame.cycle := by
  induction h with
  | nil => rfl
  | cons hf _ ih => rw [List.findSome?_cons, List.findSome?_cons, hf.cycle, ih]

end FramesAlike

/-- Scopes whose frames differ at most in a name, and whose templates are escaped alike. -/
structure Scope.Alike (x : Chars) (s u : Scope) : Prop where
  frames : FramesAlike x s.frames u.frames
  tools : s.tools = u.tools
  escaping : s.escaping = u.escaping
  usual : Escaping.ofName s.template = Escaping.ofName u.template

/-- Where a failure is does not count. -/
theorem toOption_located {α : Type} (s : Scope) (line : Nat) (r : Except RenderError α) :
    (s.located line r).toOption = r.toOption := by
  cases r <;> rfl

theorem toOption_located_congr {α : Type} (s u : Scope) (line : Nat) {a b : Except RenderError α} (h : a = b) :
    (s.located line a).toOption = (u.located line b).toOption := by
  rw [toOption_located, toOption_located, h]

namespace Scope.Alike

variable {x : Chars} {s u : Scope}

theorem filterMode (h : s.Alike x u) : s.filterMode = u.filterMode := by
  rw [Scope.filterMode, Scope.filterMode, h.escaping, h.usual]

theorem lookup? (h : s.Alike x u) {name : Chars} (hname : name ≠ x) : s.lookup? name = u.lookup? name := by
  rw [Scope.lookup?, Scope.lookup?, h.frames.lookupIn hname, h.tools]

theorem call (h : s.Alike x u) {name : Chars} (hname : name ≠ x) (args : List Value) :
    s.call name args = u.call name args := by
  rw [Scope.call, Scope.call, h.lookup? hname, h.tools]

theorem callMethod (h : s.Alike x u) (v : Value) (name : Chars) (args : List Value) :
    s.callMethod v name args = u.callMethod v name args := by
  unfold Scope.callMethod
  rw [h.tools]

theorem turn? (h : s.Alike x u) (e : Expr) (name : Chars) (args : List Value) :
    s.turn? e name args = u.turn? e name args := by
  unfold Scope.turn?
  rw [h.frames.cycle]

end Scope.Alike

/-! ## Values -/

namespace Expr

mutual

/-- An expression that avoids a name has the same value in scopes that differ in that name only. -/
theorem toOption_eval {x : Chars} {s u : Scope} (h : s.Alike x u) :
    (e : Expr) → e.avoids x = true → (eval s e).toOption = (eval u e).toOption
  | .const _ v, _ => by
    rw [eval, eval]
  | .var _ name, he => by
    have hname : name ≠ x := by simpa [avoids] using he
    rw [eval, eval, h.lookup? hname]
  | .list _ items, he => by
    rw [avoids] at he
    rw [eval, eval]
    exact toOption_map_congr (toOption_evalAll h items he) _
  | .map _ members, he => by
    rw [avoids] at he
    rw [eval, eval]
    exact toOption_map_congr (toOption_evalMembers h members he) _
  | .not e, he => by
    rw [avoids] at he
    rw [eval, eval]
    exact toOption_map_congr (toOption_eval h e he) _
  | .neg e, he => by
    rw [avoids] at he
    rw [eval, eval]
    exact toOption_bind_congr (toOption_eval h e he) fun v => toOption_located_congr s u _ rfl
  | .binary op a b, he => by
    rw [avoids, Bool.and_eq_true] at he
    rw [eval, eval]
    exact toOption_bind_congr (toOption_eval h a he.1) fun v =>
      toOption_bind_congr (toOption_eval h b he.2) fun w => toOption_located_congr s u _ rfl
  | .compare a links, he => by
    rw [avoids, Bool.and_eq_true] at he
    rw [eval, eval]
    exact toOption_bind_congr (toOption_eval h a he.1) fun v => toOption_evalLinks h v links he.2
  | .both a b, he => by
    rw [avoids, Bool.and_eq_true] at he
    rw [eval, eval]
    apply toOption_bind_congr (toOption_eval h a he.1)
    intro v
    split
    · exact toOption_eval h b he.2
    · rfl
  | .either a b, he => by
    rw [avoids, Bool.and_eq_true] at he
    rw [eval, eval]
    apply toOption_bind_congr (toOption_eval h a he.1)
    intro v
    split
    · rfl
    · exact toOption_eval h b he.2
  | .cond test yes no, he => by
    rw [avoids, Bool.and_eq_true, Bool.and_eq_true] at he
    rw [eval, eval]
    apply toOption_bind_congr (toOption_eval h test he.1.1)
    intro v
    split
    · exact toOption_eval h yes he.1.2
    · exact toOption_eval h no he.2
  | .member e name, he => by
    rw [avoids] at he
    rw [eval, eval]
    exact toOption_map_congr (toOption_eval h e he) _
  | .item e index, he => by
    rw [avoids, Bool.and_eq_true] at he
    rw [eval, eval]
    exact toOption_bind_congr (toOption_eval h e he.1) fun v =>
      toOption_bind_congr (toOption_eval h index he.2) fun i => rfl
  | .call line name args, he => by
    rw [avoids, Bool.and_eq_true] at he
    have hname : name ≠ x := by simpa using he.1
    rw [eval, eval]
    exact toOption_bind_congr (toOption_evalAll h args he.2) fun vs => toOption_located_congr s u _ (h.call hname vs)
  | .method e name args, he => by
    rw [avoids, Bool.and_eq_true] at he
    rw [eval, eval]
    apply toOption_bind_congr (toOption_eval h e he.1)
    intro v
    apply toOption_bind_congr (toOption_evalAll h args he.2)
    intro vs
    rw [h.turn?]
    split
    · rfl
    · exact toOption_located_congr s u _ (h.callMethod v name vs)
  | .apply e args, he => by
    rw [avoids, Bool.and_eq_true] at he
    rw [eval, eval, h.tools]
    exact toOption_bind_congr (toOption_eval h e he.1) fun v =>
      toOption_bind_congr (toOption_evalAll h args he.2) fun vs => toOption_located_congr s u _ rfl
  | .slice e start stop step, he => by
    rw [avoids, Bool.and_eq_true, Bool.and_eq_true, Bool.and_eq_true] at he
    rw [eval, eval]
    exact toOption_bind_congr (toOption_eval h e he.1.1.1) fun v =>
      toOption_bind_congr (toOption_eval h start he.1.1.2) fun i =>
        toOption_bind_congr (toOption_eval h stop he.1.2) fun j =>
          toOption_bind_congr (toOption_eval h step he.2) fun k => toOption_located_congr s u _ rfl
  | .filter e name args options, he => by
    rw [avoids, Bool.and_eq_true, Bool.and_eq_true] at he
    rw [eval, eval, h.filterMode]
    exact toOption_bind_congr (toOption_eval h e he.1.1) fun v =>
      toOption_bind_congr (toOption_evalAll h args he.1.2) fun vs =>
        toOption_bind_congr (toOption_evalOptions h options he.2) fun os => toOption_located_congr s u _ rfl
  | .passes e name args, he => by
    rw [avoids, Bool.and_eq_true] at he
    rw [eval, eval]
    exact toOption_bind_congr (toOption_eval h e he.1) fun v =>
      toOption_bind_congr (toOption_evalAll h args he.2) fun vs => toOption_located_congr s u _ rfl

theorem toOption_evalAll {x : Chars} {s u : Scope} (h : s.Alike x u) :
    (es : List Expr) → avoidsAll x es = true → (evalAll s es).toOption = (evalAll u es).toOption
  | [], _ => by rw [evalAll, evalAll]
  | e :: es, he => by
    rw [avoidsAll, Bool.and_eq_true] at he
    rw [evalAll, evalAll]
    exact toOption_bind_congr (toOption_eval h e he.1) fun v =>
      toOption_bind_congr (toOption_evalAll h es he.2) fun vs => rfl

theorem toOption_evalMembers {x : Chars} {s u : Scope} (h : s.Alike x u) :
    (ms : List (Expr × Expr)) → avoidsMembers x ms = true →
      (evalMembers s ms).toOption = (evalMembers u ms).toOption
  | [], _ => by rw [evalMembers, evalMembers]
  | (k, e) :: ms, he => by
    rw [avoidsMembers, Bool.and_eq_true, Bool.and_eq_true] at he
    rw [evalMembers, evalMembers]
    exact toOption_bind_congr (toOption_eval h k he.1.1) fun key =>
      toOption_bind_congr (toOption_eval h e he.1.2) fun v =>
        toOption_bind_congr (toOption_evalMembers h ms he.2) fun vs => rfl

theorem toOption_evalOptions {x : Chars} {s u : Scope} (h : s.Alike x u) :
    (options : List (Chars × Expr)) → avoidsOptions x options = true →
      (evalOptions s options).toOption = (evalOptions u options).toOption
  | [], _ => by rw [evalOptions, evalOptions]
  | (name, e) :: options, he => by
    rw [avoidsOptions, Bool.and_eq_true] at he
    rw [evalOptions, evalOptions]
    exact toOption_bind_congr (toOption_eval h e he.1) fun v =>
      toOption_bind_congr (toOption_evalOptions h options he.2) fun vs => rfl

theorem toOption_evalLinks {x : Chars} {s u : Scope} (h : s.Alike x u) (v : Value) :
    (links : List ((Operator × Bool) × Expr)) → avoidsLinks x links = true →
      (evalLinks s v links).toOption = (evalLinks u v links).toOption
  | [], _ => by rw [evalLinks, evalLinks]
  | ((op, negated), e) :: links, he => by
    rw [avoidsLinks, Bool.and_eq_true] at he
    rw [evalLinks, evalLinks]
    apply toOption_bind_congr (toOption_eval h e he.1)
    intro w
    apply toOption_bind_congr (toOption_located_congr s u _ rfl)
    intro r
    split
    · rfl
    · exact toOption_evalLinks h w links he.2

end

end Expr
end Template
end ViewBridge
