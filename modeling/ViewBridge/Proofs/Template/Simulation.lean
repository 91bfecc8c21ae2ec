import ViewBridge.Proofs.Template.Linking
/-!
# Hosts that agree

What a template writes depends on its host only through the templates it fetches. If two hosts answer every
name alike from related memories, and their memories are related afterwards, then rendering with one gives
what rendering with the other gives, failures and all.

Results:
* `Surroundings.Alike.execAll`: statements run alike in surroundings that insert alike.
* `Host.Agrees.insert`: hosts that agree insert alike.
* `Host.Agrees.render`: hosts that agree render alike.
-/
namespace ViewBridge.Template

variable {σ τ : Type} {R : σ → τ → Prop}

namespace Surroundings

/-- Surroundings that differ only in how a template is inserted, and insert alike. -/
structure Alike (R : σ → τ → Prop) (env : Surroundings σ) (env' : Surroundings τ) : Prop where
  template : env.template = env'.template
  escaping : env.escaping = env'.escaping
  tools : env.tools = env'.tools
  insert : ∀ name, (env.insert name).Related R (env'.insert name)

variable {env : Surroundings σ} {env' : Surroundings τ}

theorem Alike.fail {α : Type} (h : env.Alike R env') (line : Nat) (kind : RenderErrorKind) :
    (env.fail line kind : Run σ α).Related R (env'.fail line kind) := by
  rw [Surroundings.fail, Surroundings.fail, h.template]
  exact .throw _

theorem Alike.value (h : env.Alike R env') (e : Expr) : (env.value e).Related R (env'.value e) := by
  refine .bind .frames fun frames => ?_
  rw [h.tools, h.template, h.escaping]
  cases e.eval ⟨frames, env'.tools, env'.template, env'.escaping⟩ with
  | ok v => exact .pure v
  | error e => exact .throw e

/-- Surroundings that are alike are so under another escaping. -/
theorem Alike.escaped (h : env.Alike R env') (escaping : Escaping) :
    Surroundings.Alike R { env with escaping } { env' with escaping } :=
  ⟨h.template, rfl, h.tools, h.insert⟩

/-- Runs that go the same way are related as statements need it. -/
def related (R : σ → τ → Prop) : Linking σ τ where
  rel := Run.Related R
  pure := .pure
  bind := .bind
  bindAll _ := .changeFrame _
  turn _ := .changeFrame _
  push := .push
  pop := .pop

theorem Alike.links (h : env.Alike R env') : (related R).Links (fun _ => true) (fun _ => true) env env' where
  usual := by rw [h.template]
  escaping := h.escaping
  fail := h.fail
  value escaping e _ := (h.escaped escaping).value e
  filtered escaping _ _ _ _ := (h.escaped escaping).value _
  insert line name := by
    rw [h.template]
    exact .tryCatch (h.insert name) fun e => .throw _

/-- Statements run alike in surroundings that insert alike. -/
theorem Alike.execAll (h : env.Alike R env') (stmts : List Stmt) :
    (Stmt.execAll env stmts).Related R (Stmt.execAll env' stmts) :=
  h.links.execAll stmts (Stmt.allOf_true stmts)

end Surroundings

namespace Host

/-- From related memories, the hosts answer every name alike, and their memories are related again. -/
def Agrees (R : σ → τ → Prop) (host : Host σ) (host' : Host τ) : Prop :=
  ∀ name m n, R m n → (host.fetch name m).1 = (host'.fetch name n).1 ∧
    R (host.fetch name m).2 (host'.fetch name n).2

variable {host : Host σ} {host' : Host τ}

theorem run_fetching (host : Host σ) (name : Chars) (r : Running σ) :
    (host.fetching name).run r =
      ((host.fetch name r.memory).1, { r with memory := (host.fetch name r.memory).2 }) := by
  unfold fetching
  rw [Run.run_bind_ok (Run.run_get r), Run.run_bind_ok (Run.run_set r _)]
  cases (host.fetch name r.memory).1 <;> rfl

theorem Agrees.fetching (h : host.Agrees R host') (name : Chars) :
    (host.fetching name).Related R (host'.fetching name) := by
  intro frames m n hmn
  obtain ⟨hanswer, hmemory⟩ := h name m n hmn
  exact ⟨_, frames, _, _, run_fetching host name _, by rw [run_fetching, hanswer], hmemory⟩

theorem Agrees.insert (h : host.Agrees R host') (tools : Toolbox) (levels : Nat) (name : Chars) :
    (host.insert tools levels name).Related R (host'.insert tools levels name) := by
  induction levels generalizing name with
  | zero =>
    refine .bind (h.fetching name) fun found => ?_
    cases found with
    | none => exact .pure none
    | some stmts => exact .throw _
  | succ levels ih =>
    refine .bind (h.fetching name) fun found => ?_
    cases found with
    | none => exact .pure none
    | some stmts =>
      refine .bind .frames fun frames => .ite (.throw _) (.bind (.tryCatch ?_ fun _ => .throw _) fun _ => .pure _)
      have halike : Surroundings.Alike R ⟨name, Escaping.ofName name, tools, host.insert tools levels⟩
          ⟨name, Escaping.ofName name, tools, host'.insert tools levels⟩ := ⟨rfl, rfl, rfl, ih⟩
      exact halike.execAll stmts

/-- Hosts that agree render alike, and remember related things afterwards. -/
theorem Agrees.render (h : host.Agrees R host') (tools : Toolbox) (name : Chars) (stmts : List Stmt)
    (context : Value) {m : σ} {n : τ} (hmn : R m n) :
    (host.render tools name stmts context m).1 = (host'.render tools name stmts context n).1 ∧
      R (host.render tools name stmts context m).2 (host'.render tools name stmts context n).2 := by
  have halike : Surroundings.Alike R
      ⟨name, Escaping.ofName name, tools, host.insert tools (depthLimit / 10)⟩
      ⟨name, Escaping.ofName name, tools, host'.insert tools (depthLimit / 10)⟩ :=
    ⟨rfl, rfl, rfl, h.insert tools (depthLimit / 10)⟩
  obtain ⟨result, frames, m', n', hm, hn, hmn'⟩ :=
    halike.execAll stmts [{ context }] m n hmn
  simpa only [Host.render, hm, hn, true_and] using hmn'

end Host
end ViewBridge.Template
