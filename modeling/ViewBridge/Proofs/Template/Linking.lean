import ViewBridge.Proofs.Template.Run
/-!
# Relations that statements keep

Statements put runs together in few ways: one after the other, in a frame of their own, with names bound in
the innermost frame. A relation between runs over two memories that respects these ways relates what a
statement does in two surroundings, if it relates there how its expressions are evaluated, how it fails, and
how a template is inserted.

Results:
* `Linking.Links.exec`, `Linking.Links.execAll`: statements run in relation if their expressions do.
* `Stmt.all_true`: what every expression and every filter has, every statement has.
-/
namespace ViewBridge.Template

variable {σ τ : Type}

/-! ## The expressions of statements -/

namespace Stmt

mutual

/-- Whether all expressions of a statement have a property, and all its filters another one. -/
def all (P : Expr → Bool) (F : Filtering → Bool) : Stmt → Bool
  | .data _ => true
  | .output e => P e
  | .branch test yes no => P test && allOf P F yes && allOf P F no
  | .loop _ source condition body otherwise =>
    P source && condition.all P && allOf P F body && allOf P F otherwise
  | .assign _ e => P e
  | .capture _ _ filters body => filters.all F && allOf P F body
  | .filtered _ filters body => filters.all F && allOf P F body
  | .scoped bindings body => (bindings.all fun b => P b.2) && allOf P F body
  | .escaped mode body => P mode && allOf P F body
  | .effect e => P e
  | .insertion name _ => P name
  | .leave => true
  | .next => true

/-- Whether all expressions of several statements have a property, and all their filters another one. -/
def allOf (P : Expr → Bool) (F : Filtering → Bool) : List Stmt → Bool
  | [] => true
  | stmt :: rest => all P F stmt && allOf P F rest

end

mutual

theorem all_true : (stmt : Stmt) → all (fun _ => true) (fun _ => true) stmt = true
  | .branch _ yes no => by simp [all, allOf_true yes, allOf_true no]
  | .loop _ _ condition body otherwise => by
    cases condition <;> simp [all, allOf_true body, allOf_true otherwise]
  | .capture _ _ _ body => by simp [all, allOf_true body]
  | .filtered _ _ body => by simp [all, allOf_true body]
  | .scoped _ body => by simp [all, allOf_true body]
  | .escaped _ body => by simp [all, allOf_true body]
  | .data _ | .output _ | .assign _ _ | .effect _ | .insertion _ _ | .leave | .next => by rw [all]

/-- What every expression and every filter has, all statements have. -/
theorem allOf_true : (stmts : List Stmt) → allOf (fun _ => true) (fun _ => true) stmts = true
  | [] => by rw [allOf]
  | stmt :: rest => by rw [allOf, all_true stmt, allOf_true rest, Bool.and_self]

end

end Stmt

/-! ## Linked surroundings -/

/-- A relation between runs over two memories that respects how statements put runs together. -/
structure Linking (σ τ : Type) where
  rel : {α : Type} → Run σ α → Run τ α → Prop
  pure : ∀ {α : Type} (v : α), rel (Pure.pure v) (Pure.pure v)
  bind : ∀ {α β : Type} {a : Run σ α} {b : Run τ α} {f : α → Run σ β} {g : α → Run τ β},
    rel a b → (∀ v, rel (f v) (g v)) → rel (a >>= f) (b >>= g)
  bindAll : ∀ pairs, rel (Run.bindAll pairs) (Run.bindAll pairs)
  turn : ∀ c : Cycle, rel (Run.changeFrame fun f => { f with cycle := some c })
    (Run.changeFrame fun f => { f with cycle := some c })
  push : rel Run.push Run.push
  pop : rel Run.pop Run.pop

namespace Linking

variable {L : Linking σ τ} {P : Expr → Bool} {F : Filtering → Bool}

/-- A choice between linked runs. -/
theorem ite (L : Linking σ τ) {α : Type} {p : Prop} [Decidable p] {a a' : Run σ α} {b b' : Run τ α}
    (h : L.rel a b) (h' : L.rel a' b') : L.rel (if p then a else a') (if p then b else b') := by
  split
  · exact h
  · exact h'

/-- Surroundings in which failures, values and insertions are linked, under any escaping. -/
structure Links (L : Linking σ τ) (P : Expr → Bool) (F : Filtering → Bool) (env : Surroundings σ)
    (env' : Surroundings τ) : Prop where
  usual : Escaping.ofName env.template = Escaping.ofName env'.template
  escaping : env.escaping = env'.escaping
  fail : ∀ {α : Type} (line : Nat) (kind : RenderErrorKind),
    L.rel (env.fail line kind : Run σ α) (env'.fail line kind)
  value : ∀ (escaping : Escaping) (e : Expr), P e = true →
    L.rel ({ env with escaping }.value e) ({ env' with escaping }.value e)
  filtered : ∀ (escaping : Escaping) (filters : List Filtering) (line : Nat) (v : Value),
    filters.all F = true →
      L.rel ({ env with escaping }.value (filters.foldl Filtering.over (.const line v)))
        ({ env' with escaping }.value (filters.foldl Filtering.over (.const line v)))
  insert : ∀ (line : Nat) (name : Chars),
    L.rel (tryCatch (env.insert name) fun e => throw (e.at_ ⟨env.template, line⟩))
      (tryCatch (env'.insert name) fun e => throw (e.at_ ⟨env'.template, line⟩))

namespace Links

variable {env : Surroundings σ} {env' : Surroundings τ}

/-- Linked surroundings stay linked under another escaping. -/
theorem escaped (h : L.Links P F env env') (escaping : Escaping) :
    L.Links P F { env with escaping } { env' with escaping } :=
  ⟨h.usual, rfl, h.fail, h.value, h.filtered, h.insert⟩

theorem value_of (h : L.Links P F env env') {e : Expr} (he : P e = true) :
    L.rel (env.value e) (env'.value e) := by
  have hvalue := h.value env.escaping e he
  obtain ⟨template, escaping, tools, insert⟩ := env'
  obtain rfl : env.escaping = escaping := h.escaping
  exact hvalue

theorem bind (h : L.Links P F env env') (target : Target) (v : Value) :
    L.rel (env.bind target v) (env'.bind target v) := by
  unfold Surroundings.bind
  cases target.bindings v with
  | ok pairs => exact L.bindAll pairs
  | error failure => exact h.fail _ _

theorem filteredText (h : L.Links P F env env') (line : Nat) {filters : List Filtering}
    (hfilters : filters.all F = true) (out : Chars) :
    L.rel (env.filteredText line filters out) (env'.filteredText line filters out) := by
  have hcaptured : env.captured out = env'.captured out := by
    rw [Surroundings.captured, Surroundings.captured, h.escaping]
  have hvalue := h.filtered env.escaping filters line (env.captured out) hfilters
  rw [Surroundings.filteredText, Surroundings.filteredText, ← hcaptured]
  obtain ⟨template, escaping, tools, insert⟩ := env'
  obtain rfl : env.escaping = escaping := h.escaping
  exact hvalue

theorem chosen (h : L.Links P F env env') (target : Target) {condition : Expr} (hcondition : P condition = true)
    (items : List Value) : L.rel (env.chosen target condition items) (env'.chosen target condition items) := by
  induction items with
  | nil => exact L.pure []
  | cons v rest ih =>
    exact L.bind (h.bind target v) fun _ => L.bind (h.value_of hcondition) fun _ => L.bind ih fun _ => L.pure _

theorem bindEach (h : L.Links P F env env') {bindings : List (Target × Expr)}
    (hbindings : (bindings.all fun b => P b.2) = true) :
    L.rel (env.bindEach bindings) (env'.bindEach bindings) := by
  induction bindings with
  | nil => exact L.pure ()
  | cons b rest ih =>
    rw [List.all_cons, Bool.and_eq_true] at hbindings
    exact L.bind (h.value_of hbindings.1) fun v => L.bind (h.bind b.1 v) fun _ => ih hbindings.2

theorem insertFirst (h : L.Links P F env env') (line : Nat) (offered : List Value) :
    L.rel (env.insertFirst line offered) (env'.insertFirst line offered) := by
  induction offered with
  | nil => exact L.pure none
  | cons v vs ih =>
    cases v
    case text safe name =>
      unfold Surroundings.insertFirst
      apply L.bind (h.insert line name)
      intro inserted
      cases inserted with
      | some out => exact L.pure _
      | none => exact ih
    all_goals exact h.fail _ _

theorem insertion (h : L.Links P F env env') (line : Nat) (v : Value) (lenient : Bool) :
    L.rel (env.insertion line v lenient) (env'.insertion line v lenient) := by
  apply L.bind (h.insertFirst line _)
  intro inserted
  cases inserted with
  | some out => exact L.pure out
  | none => exact L.ite (L.pure _) (h.fail _ _)

theorem iterate (h : L.Links P F env env') (target : Target) (length : Nat) {body : Run σ (Flow × Chars)}
    {body' : Run τ (Flow × Chars)} (hbody : L.rel body body') (index : Nat) (previous : Value)
    (items : List Value) : L.rel (env.iterate target length body index previous items)
      (env'.iterate target length body' index previous items) := by
  induction items generalizing index previous with
  | nil => exact L.pure _
  | cons v rest ih =>
    apply L.bind (L.turn _)
    intro _
    apply L.bind (h.bind target v)
    intro _
    apply L.bind hbody
    intro round
    exact L.ite (L.pure _) (L.bind (ih (index + 1) v) fun _ => L.pure _)

/-- All rounds of a loop in a frame of their own, and then its alternative if none was completed. -/
theorem rounds (h : L.Links P F env env') (target : Target) (items : List Value)
    {body otherwise : Run σ (Flow × Chars)} {body' otherwise' : Run τ (Flow × Chars)}
    (hbody : L.rel body body') (hotherwise : L.rel otherwise otherwise') :
    L.rel
      (do
        Run.push
        let (completed, out) ← env.iterate target items.length body 0 .undefined items
        Run.pop
        if completed = 0 then do
          let (flow, more) ← otherwise
          Pure.pure (flow, out ++ more)
        else Pure.pure (.onward, out))
      (do
        Run.push
        let (completed, out) ← env'.iterate target items.length body' 0 .undefined items
        Run.pop
        if completed = 0 then do
          let (flow, more) ← otherwise'
          Pure.pure (flow, out ++ more)
        else Pure.pure (.onward, out)) :=
  L.bind L.push fun _ => L.bind (h.iterate target _ hbody 0 .undefined items) fun _ =>
    L.bind L.pop fun _ => L.ite (L.bind hotherwise fun _ => L.pure _) (L.pure _)

mutual

/-- A statement runs in relation if its expressions and filters do. -/
theorem exec {env : Surroundings σ} {env' : Surroundings τ} (h : L.Links P F env env') :
    (stmt : Stmt) → stmt.all P F = true → L.rel (stmt.exec env) (stmt.exec env')
  | .data s, _ => by
    rw [Stmt.exec, Stmt.exec]
    exact L.pure _
  | .output e, hs => by
    rw [Stmt.all] at hs
    rw [Stmt.exec, Stmt.exec, h.escaping]
    apply L.bind (h.value_of hs)
    intro v
    cases env'.escaping.write v with
    | ok out => exact L.pure _
    | error kind => exact h.fail _ _
  | .branch test yes no, hs => by
    simp only [Stmt.all, Bool.and_eq_true] at hs
    rw [Stmt.exec, Stmt.exec]
    exact L.bind (h.value_of hs.1.1) fun _ => L.ite (execAll h yes hs.1.2) (execAll h no hs.2)
  | .loop target source condition body otherwise, hs => by
    simp only [Stmt.all, Bool.and_eq_true] at hs
    obtain ⟨⟨⟨hsource, hcondition⟩, hbody⟩, hotherwise⟩ := hs
    rw [Stmt.exec, Stmt.exec]
    apply L.bind (h.value_of hsource)
    intro v
    cases Filter.walk? v with
    | none => exact h.fail _ _
    | some items =>
      have hrounds (items : List Value) :=
        h.rounds target items (execAll h body hbody) (execAll h otherwise hotherwise)
      cases condition with
      | none => exact L.bind (L.pure items) hrounds
      | some condition =>
        exact L.bind L.push fun _ => L.bind (h.chosen target hcondition items) fun items =>
          L.bind L.pop fun _ => L.bind (L.pure items) hrounds
  | .assign target e, hs => by
    rw [Stmt.all] at hs
    rw [Stmt.exec, Stmt.exec]
    exact L.bind (h.value_of hs) fun v => L.bind (h.bind target v) fun _ => L.pure _
  | .capture target line filters body, hs => by
    rw [Stmt.all, Bool.and_eq_true] at hs
    rw [Stmt.exec, Stmt.exec]
    exact L.bind (execAll h body hs.2) fun _ => L.bind (h.filteredText line hs.1 _) fun v =>
      L.bind (h.bind target v) fun _ => L.pure _
  | .filtered line filters body, hs => by
    rw [Stmt.all, Bool.and_eq_true] at hs
    rw [Stmt.exec, Stmt.exec, h.escaping]
    apply L.bind (execAll h body hs.2)
    intro _
    apply L.bind (h.filteredText line hs.1 _)
    intro v
    cases env'.escaping.write v with
    | ok out => exact L.pure _
    | error kind => exact h.fail _ _
  | .scoped bindings body, hs => by
    rw [Stmt.all, Bool.and_eq_true] at hs
    rw [Stmt.exec, Stmt.exec]
    exact L.bind L.push fun _ => L.bind (h.bindEach hs.1) fun _ =>
      L.bind (execAll h body hs.2) fun _ => L.bind L.pop fun _ => L.pure _
  | .escaped mode body, hs => by
    rw [Stmt.all, Bool.and_eq_true] at hs
    rw [Stmt.exec, Stmt.exec]
    apply L.bind (h.value_of hs.1)
    intro v
    have hmode : env.escapingOf? v = env'.escapingOf? v := by
      unfold Surroundings.escapingOf?
      rw [h.usual]
    rw [hmode]
    cases env'.escapingOf? v with
    | none => exact h.fail _ _
    | some escaping => exact execAll (h.escaped escaping) body hs.2
  | .effect e, hs => by
    rw [Stmt.all] at hs
    rw [Stmt.exec, Stmt.exec]
    exact L.bind (h.value_of hs) fun _ => L.pure _
  | .insertion name lenient, hs => by
    rw [Stmt.all] at hs
    rw [Stmt.exec, Stmt.exec]
    exact L.bind (h.value_of hs) fun v => L.bind (h.insertion _ v lenient) fun _ => L.pure _
  | .leave, _ => by
    rw [Stmt.exec, Stmt.exec]
    exact L.pure _
  | .next, _ => by
    rw [Stmt.exec, Stmt.exec]
    exact L.pure _

/-- Statements run in relation if their expressions and filters do. -/
theorem execAll {env : Surroundings σ} {env' : Surroundings τ} (h : L.Links P F env env') :
    (stmts : List Stmt) → Stmt.allOf P F stmts = true → L.rel (Stmt.execAll env stmts) (Stmt.execAll env' stmts)
  | [], _ => by
    rw [Stmt.execAll, Stmt.execAll]
    exact L.pure _
  | stmt :: rest, hs => by
    rw [Stmt.allOf, Bool.and_eq_true] at hs
    rw [Stmt.execAll, Stmt.execAll]
    exact L.bind (exec h stmt hs.1) fun _ =>
      L.ite (L.bind (execAll h rest hs.2) fun _ => L.pure _) (L.pure _)

end

end Links
end Linking
end ViewBridge.Template
