import ViewBridge.Proofs.Template.Linking
import ViewBridge.Proofs.Template.Simulation
import ViewBridge.Proofs.Template.Unread
/-!
# Templates that cannot tell

A template that avoids a name writes the same, or fails, whatever the name stands for in its context and
whatever the template itself is called, as long as it is escaped alike. This goes for the templates it inserts
only if they avoid the name too, and which ones these are shows while it runs. So there is a property of the
host's memory that says so: a run is compared with another one only if its memory has the property in the end,
and the memory must not have gained it on the way.

Results:
* `Run.Blind.bind_of`: runs one after the other cannot tell if the second one cannot tell after the first.
* `Surroundings.Blind.execAll`: statements that avoid a name cannot tell it.
* `Host.Blind.render`: hosts that offer only templates that avoid a name render alike.
-/
namespace ViewBridge.Template

variable {σ τ α β : Type} {Q : σ → Prop}

/-! ## Runs that gain nothing -/

namespace Run

/-- A property of memories that holds after the run held before it. -/
def Inherits (Q : σ → Prop) (a : Run σ α) : Prop := ∀ r, Q (a.run r).2.memory → Q r.memory

namespace Inherits

theorem pure (v : α) : (Pure.pure v : Run σ α).Inherits Q := fun _ h => h

theorem throw (e : RenderError) : (throw e : Run σ α).Inherits Q := fun _ h => h

theorem bind {a : Run σ α} {f : α → Run σ β} (ha : a.Inherits Q) (hf : ∀ v, (f v).Inherits Q) :
    (a >>= f).Inherits Q := by
  intro r h
  apply ha r
  rw [run_bind] at h
  generalize a.run r = result at h ⊢
  obtain ⟨answer, r'⟩ := result
  cases answer with
  | ok v => exact hf v r' h
  | error e => exact h

theorem rethrow {a : Run σ α} (ha : a.Inherits Q) (k : RenderError → RenderError) :
    (tryCatch a fun e => MonadExcept.throw (k e)).Inherits Q := by
  intro r h
  apply ha r
  rw [run_tryCatch] at h
  generalize a.run r = result at h ⊢
  obtain ⟨answer, r'⟩ := result
  cases answer <;> exact h

theorem frames : (frames : Run σ _).Inherits Q := fun _ h => h

theorem changeFrame (k : Frame → Frame) : (changeFrame k : Run σ _).Inherits Q := fun _ h => h

theorem ite {p : Prop} [Decidable p] {a a' : Run σ α} (h : a.Inherits Q) (h' : a'.Inherits Q) :
    (if p then a else a').Inherits Q := by
  split
  · exact h
  · exact h'

end Inherits
end Run

namespace Surroundings

/-- What runs inherit is a relation that statements keep. -/
def inheriting (Q : σ → Prop) : Linking σ σ where
  rel a _ := a.Inherits Q
  pure := .pure
  bind := .bind
  bindAll _ := .changeFrame _
  turn _ := .changeFrame _
  push := fun _ h => h
  pop := fun _ h => h

theorem inherits_value (env : Surroundings σ) (e : Expr) : (env.value e).Inherits Q := by
  unfold Surroundings.value
  refine .bind .frames fun frames => ?_
  cases e.eval ⟨frames, env.tools, env.template, env.escaping⟩ with
  | ok v => exact .pure v
  | error e => exact .throw e

/-- Statements inherit what insertions inherit. -/
theorem inherits_execAll {env : Surroundings σ} (h : ∀ name, (env.insert name).Inherits Q) (stmts : List Stmt) :
    (Stmt.execAll env stmts).Inherits Q := by
  have hlinks : (inheriting Q).Links (fun _ => true) (fun _ => true) env env :=
    ⟨rfl, rfl, fun _ _ => .throw _, fun _ _ _ => inherits_value _ _, fun _ _ _ _ _ => inherits_value _ _,
      fun _ name => .rethrow (h name) _⟩
  exact hlinks.execAll stmts (Stmt.allOf_true stmts)

end Surroundings

/-! ## Runs that cannot tell -/

variable {x : Chars} {R : σ → τ → Prop}

/-- Running templates whose frames differ at most in a name, with related memories. -/
structure Running.Alike (x : Chars) (R : σ → τ → Prop) (r : Running σ) (r' : Running τ) : Prop where
  frames : FramesAlike x r.frames r'.frames
  memory : R r.memory r'.memory

/-- Runs that cannot tell what a name stands for: if the memory of the first one has a property in the end, both
come to one value or both fail, in frames that again differ at most in the name. -/
structure Run.Blind (x : Chars) (R : σ → τ → Prop) (Q : σ → Prop) (a : Run σ α) (b : Run τ α) : Prop where
  inherits : a.Inherits Q
  alike : ∀ r r', r.Alike x R r' → Q (a.run r).2.memory →
    (a.run r).1.toOption = (b.run r').1.toOption ∧ (a.run r).2.Alike x R (b.run r').2

namespace Run.Blind

theorem pure (v : α) : Blind x R Q (Pure.pure v) (Pure.pure v) := ⟨.pure v, fun _ _ h _ => ⟨rfl, h⟩⟩

theorem throw (e e' : RenderError) : Blind x R Q (throw e : Run σ α) (throw e') :=
  ⟨.throw e, fun _ _ h _ => ⟨rfl, h⟩⟩

/-- Runs one after the other cannot tell if the second one cannot after what the first one comes to. -/
theorem bind_of {a : Run σ α} {b : Run τ α} {f : α → Run σ β} {g : α → Run τ β} (hab : Blind x R Q a b)
    (hf : ∀ v, (f v).Inherits Q)
    (hfg : ∀ r v, (a.run r).1 = .ok v → Q (a.run r).2.memory → Blind x R Q (f v) (g v)) :
    Blind x R Q (a >>= f) (b >>= g) := by
  refine ⟨hab.inherits.bind hf, ?_⟩
  intro r r' h hq
  -- what the first run leaves has the property, whether the second one runs or not
  have hmiddle : Q (a.run r).2.memory := by
    rw [run_bind] at hq
    generalize a.run r = result at hq ⊢
    obtain ⟨answer, middle⟩ := result
    cases answer with
    | ok v => exact hf v middle hq
    | error e => exact hq
  obtain ⟨hanswer, halike⟩ := hab.alike r r' h hmiddle
  have hnext := hfg r
  rw [run_bind] at hq ⊢
  rw [run_bind]
  generalize a.run r = result at hanswer halike hmiddle hnext hq ⊢
  generalize b.run r' = result' at hanswer halike ⊢
  obtain ⟨answer, middle⟩ := result
  obtain ⟨answer', middle'⟩ := result'
  obtain ⟨e, e', rfl, rfl⟩ | ⟨v, rfl, rfl⟩ := toOption_eq_cases hanswer
  · exact ⟨rfl, halike⟩
  · exact (hnext v rfl hmiddle).alike middle middle' halike hq

theorem bind {a : Run σ α} {b : Run τ α} {f : α → Run σ β} {g : α → Run τ β} (hab : Blind x R Q a b)
    (hfg : ∀ v, Blind x R Q (f v) (g v)) : Blind x R Q (a >>= f) (b >>= g) :=
  hab.bind_of (fun v => (hfg v).inherits) fun _ v _ _ => hfg v

/-- Failures may be told differently. -/
theorem rethrow {a : Run σ α} {b : Run τ α} (hab : Blind x R Q a b) (k k' : RenderError → RenderError) :
    Blind x R Q (tryCatch a fun e => MonadExcept.throw (k e)) (tryCatch b fun e => MonadExcept.throw (k' e)) := by
  refine ⟨hab.inherits.rethrow k, ?_⟩
  intro r r' h hq
  have hmiddle : Q (a.run r).2.memory := by
    rw [run_tryCatch] at hq
    generalize a.run r = result at hq ⊢
    obtain ⟨answer, middle⟩ := result
    cases answer <;> exact hq
  obtain ⟨hanswer, halike⟩ := hab.alike r r' h hmiddle
  rw [run_tryCatch, run_tryCatch]
  generalize a.run r = result at hanswer halike ⊢
  generalize b.run r' = result' at hanswer halike ⊢
  obtain ⟨answer, middle⟩ := result
  obtain ⟨answer', middle'⟩ := result'
  obtain ⟨e, e', rfl, rfl⟩ | ⟨v, rfl, rfl⟩ := toOption_eq_cases hanswer
  · exact ⟨rfl, halike⟩
  · exact ⟨rfl, halike⟩

theorem ite {p : Prop} [Decidable p] {a a' : Run σ α} {b b' : Run τ α} (h : Blind x R Q a b)
    (h' : Blind x R Q a' b') : Blind x R Q (if p then a else a') (if p then b else b') := by
  split
  · exact h
  · exact h'

/-- What is done with the frames may differ as they do. -/
theorem frames_bind {f : List Frame → Run σ α} {g : List Frame → Run τ α}
    (hfg : ∀ frames frames', FramesAlike x frames frames' → Blind x R Q (f frames) (g frames')) :
    Blind x R Q (Run.frames >>= f) (Run.frames >>= g) := by
  refine ⟨Inherits.bind .frames fun frames => ?_, ?_⟩
  · exact (hfg frames frames (List.forall₂_same.2 fun frame _ => .refl x frame)).inherits
  · intro r r' h hq
    rw [run_bind_ok (run_frames r)] at hq ⊢
    rw [run_bind_ok (run_frames r')]
    exact (hfg r.frames r'.frames h.frames).alike r r' h hq

theorem changeFrame {k : Frame → Frame} (hk : ∀ f g : Frame, f.Alike x g → (k f).Alike x (k g)) :
    Blind x R Q (Run.changeFrame k) (Run.changeFrame k) := by
  refine ⟨.changeFrame k, ?_⟩
  intro r r' h _
  refine ⟨rfl, ?_, h.memory⟩
  obtain ⟨frames, memory⟩ := r
  obtain ⟨frames', memory'⟩ := r'
  have hframes : FramesAlike x frames frames' := h.frames
  cases hframes with
  | nil => exact .nil
  | cons hframe hbelow => exact .cons (hk _ _ hframe) hbelow

theorem push : Blind x R Q Run.push Run.push :=
  ⟨fun _ h => h, fun _ _ h _ => ⟨rfl, .cons (.refl x {}) h.frames, h.memory⟩⟩

theorem pop : Blind x R Q Run.pop Run.pop := by
  refine ⟨fun _ h => h, ?_⟩
  intro r r' h _
  refine ⟨rfl, ?_, h.memory⟩
  show FramesAlike x (r.frames.drop 1) (r'.frames.drop 1)
  exact List.forall₂_drop 1 h.frames

end Run.Blind

/-! ## Frames that are changed alike -/

namespace Frame.Alike

variable {f g : Frame}

theorem bind (h : f.Alike x g) (name : Chars) (v : Value) : (f.bind name v).Alike x (g.bind name v) :=
  ⟨by rw [Frame.bind, Frame.bind, h.locals], h.cycle, h.context⟩

theorem bindAll (h : f.Alike x g) (pairs : List (Chars × Value)) :
    (pairs.foldl (fun f p => f.bind p.1 p.2) f).Alike x (pairs.foldl (fun f p => f.bind p.1 p.2) g) := by
  induction pairs generalizing f g with
  | nil => exact h
  | cons p pairs ih => exact ih (h.bind p.1 p.2)

end Frame.Alike

/-! ## Statements that cannot tell -/

/-- Whether statements avoid a name. -/
def Stmt.avoid (x : Chars) (stmts : List Stmt) : Bool := Stmt.allOf (Expr.avoids x) (Filtering.avoids x) stmts

namespace Surroundings

/-- Surroundings that are escaped alike, and insert templates that cannot tell. -/
structure Blind (x : Chars) (R : σ → τ → Prop) (Q : σ → Prop) (env : Surroundings σ) (env' : Surroundings τ) :
    Prop where
  usual : Escaping.ofName env.template = Escaping.ofName env'.template
  escaping : env.escaping = env'.escaping
  tools : env.tools = env'.tools
  insert : ∀ name, Run.Blind x R Q (env.insert name) (env'.insert name)

/-- Runs that cannot tell are related as statements need it. -/
def blind (x : Chars) (R : σ → τ → Prop) (Q : σ → Prop) : Linking σ τ where
  rel := Run.Blind x R Q
  pure := .pure
  bind := .bind
  bindAll pairs := .changeFrame fun _ _ h => h.bindAll pairs
  turn _ := .changeFrame fun _ _ h => ⟨h.locals, rfl, h.context⟩
  push := .push
  pop := .pop

variable {env : Surroundings σ} {env' : Surroundings τ}

theorem Blind.value (h : env.Blind x R Q env') {e : Expr} (he : e.avoids x = true) :
    Run.Blind x R Q (env.value e) (env'.value e) := by
  apply Run.Blind.frames_bind
  intro frames frames' hframes
  have hscopes : Scope.Alike x ⟨frames, env.tools, env.template, env.escaping⟩
      ⟨frames', env'.tools, env'.template, env'.escaping⟩ := ⟨hframes, h.tools, h.escaping, h.usual⟩
  have hvalue := Expr.toOption_eval hscopes e he
  generalize e.eval ⟨frames, env.tools, env.template, env.escaping⟩ = result at hvalue ⊢
  generalize e.eval ⟨frames', env'.tools, env'.template, env'.escaping⟩ = result' at hvalue ⊢
  obtain ⟨cause, cause', rfl, rfl⟩ | ⟨v, rfl, rfl⟩ := toOption_eq_cases hvalue
  · exact .throw cause cause'
  · exact .pure v

theorem Blind.escaped (h : env.Blind x R Q env') (escaping : Escaping) :
    Surroundings.Blind x R Q { env with escaping } { env' with escaping } :=
  ⟨h.usual, rfl, h.tools, h.insert⟩

theorem Blind.links (h : env.Blind x R Q env') :
    (blind x R Q).Links (Expr.avoids x) (Filtering.avoids x) env env' where
  usual := h.usual
  escaping := h.escaping
  fail _ _ := .throw _ _
  value escaping _ he := (h.escaped escaping).value he
  filtered escaping _ _ _ hfilters := (h.escaped escaping).value (avoids_filtering hfilters (by rw [Expr.avoids]))
  insert _ name := (h.insert name).rethrow _ _

/-- Statements that avoid a name cannot tell it. -/
theorem Blind.execAll (h : env.Blind x R Q env') {stmts : List Stmt} (hs : Stmt.avoid x stmts = true) :
    Run.Blind x R Q (Stmt.execAll env stmts) (Stmt.execAll env' stmts) :=
  h.links.execAll stmts hs

end Surroundings

/-! ## Hosts -/

namespace Host

/-- Hosts that answer alike from related memories, and whose templates avoid a name if the memory of the first
one has a property afterwards, which it had before then. -/
structure Blind (x : Chars) (R : σ → τ → Prop) (Q : σ → Prop) (host : Host σ) (host' : Host τ) : Prop where
  inherits : ∀ name m, Q (host.fetch name m).2 → Q m
  answer : ∀ name m n, R m n → (host.fetch name m).1.toOption = (host'.fetch name n).1.toOption ∧
    R (host.fetch name m).2 (host'.fetch name n).2
  avoid : ∀ name m stmts, (host.fetch name m).1 = .ok (some stmts) → Q (host.fetch name m).2 →
    Stmt.avoid x stmts = true

/-- Execute a template that was found, with a way to insert others; `depth` counts the insertions around it. -/
def enter (tools : Toolbox) (insert : Chars → Run σ (Option Chars)) (depth : Nat) (name : Chars)
    (stmts : List Stmt) : Run σ (Option Chars) := do
  let depth := (← Run.frames).length + depth
  if depthLimit < depth then throw Value.invalid
  else do
    let (_, out) ← wrapped (Stmt.execAll ⟨name, Escaping.ofName name, tools, insert⟩ stmts)
    pure (some out)

theorem insert_succ (host : Host σ) (tools : Toolbox) (levels : Nat) (name : Chars) :
    host.insert tools (levels + 1) name = host.fetching name >>= fun found => match found with
      | none => pure none
      | some stmts =>
        enter tools (host.insert tools levels) (10 * (depthLimit / 10 - levels)) name stmts := rfl

variable {host : Host σ} {host' : Host τ}

theorem inherits_enter (tools : Toolbox) {insert : Chars → Run σ (Option Chars)}
    (h : ∀ name, (insert name).Inherits Q) (depth : Nat) (name : Chars) (stmts : List Stmt) :
    (enter tools insert depth name stmts).Inherits Q := by
  unfold enter
  refine .bind .frames fun frames => ?_
  exact .ite (.throw _) (.bind (.rethrow (Surroundings.inherits_execAll h stmts) _) fun _ => .pure _)

namespace Blind

theorem inherits_fetching (h : host.Blind x R Q host') (name : Chars) : (host.fetching name).Inherits Q := by
  intro r hq
  rw [run_fetching] at hq
  exact h.inherits name r.memory hq

theorem inherits_insert (h : host.Blind x R Q host') (tools : Toolbox) (levels : Nat) (name : Chars) :
    (host.insert tools levels name).Inherits Q := by
  induction levels generalizing name with
  | zero =>
    apply (h.inherits_fetching name).bind
    intro found
    cases found with
    | none => exact .pure none
    | some stmts => exact .throw _
  | succ levels ih =>
    rw [insert_succ]
    apply (h.inherits_fetching name).bind
    intro found
    cases found with
    | none => exact .pure none
    | some stmts => exact inherits_enter tools ih _ name stmts

theorem fetching (h : host.Blind x R Q host') (name : Chars) :
    Run.Blind x R Q (host.fetching name) (host'.fetching name) := by
  refine ⟨h.inherits_fetching name, ?_⟩
  intro r r' halike _
  obtain ⟨hanswer, hmemory⟩ := h.answer name r.memory r'.memory halike.memory
  rw [run_fetching, run_fetching]
  exact ⟨hanswer, halike.frames, hmemory⟩

theorem enter {tools : Toolbox} {insert : Chars → Run σ (Option Chars)} {insert' : Chars → Run τ (Option Chars)}
    (h : ∀ name, Run.Blind x R Q (insert name) (insert' name)) (depth : Nat) (name : Chars) {stmts : List Stmt}
    (hs : Stmt.avoid x stmts = true) :
    Run.Blind x R Q (Host.enter tools insert depth name stmts) (Host.enter tools insert' depth name stmts) := by
  apply Run.Blind.frames_bind
  intro frames frames' hframes
  rw [List.Forall₂.length_eq hframes]
  apply Run.Blind.ite (.throw _ _)
  have henv : Surroundings.Blind x R Q ⟨name, Escaping.ofName name, tools, insert⟩
      ⟨name, Escaping.ofName name, tools, insert'⟩ := ⟨rfl, rfl, rfl, h⟩
  apply Run.Blind.bind
  · exact .rethrow (henv.execAll hs) _ _
  · exact fun _ => .pure _

/-- Insertions cannot tell: a template that is inserted avoids the name, or the property is lost. -/
theorem insert (h : host.Blind x R Q host') (tools : Toolbox) (levels : Nat) (name : Chars) :
    Run.Blind x R Q (host.insert tools levels name) (host'.insert tools levels name) := by
  induction levels generalizing name with
  | zero =>
    apply (h.fetching name).bind
    intro found
    cases found with
    | none => exact .pure none
    | some stmts => exact .throw _ _
  | succ levels ih =>
    rw [insert_succ, insert_succ]
    apply (h.fetching name).bind_of
    · intro found
      cases found with
      | none => exact .pure none
      | some stmts => exact inherits_enter tools (h.inherits_insert tools levels) _ name stmts
    · intro r found hfound hq
      rw [run_fetching] at hfound hq
      cases found with
      | none => exact .pure none
      | some stmts => exact enter ih _ name (h.avoid name r.memory stmts hfound hq)

theorem inherits_render (h : host.Blind x R Q host') (tools : Toolbox) (name : Chars) (stmts : List Stmt)
    (context : Value) (m : σ) (hq : Q (host.render tools name stmts context m).2) : Q m :=
  Surroundings.inherits_execAll (h.inherits_insert tools _) stmts ⟨[{ context }], m⟩ hq

/-- Statements that avoid a name are rendered alike as templates of two names that are escaped alike, in contexts
that differ in the avoided name alone. -/
theorem render (h : host.Blind x R Q host') (tools : Toolbox) {name name' : Chars}
    (hname : Escaping.ofName name = Escaping.ofName name') {stmts : List Stmt} (hs : Stmt.avoid x stmts = true)
    {context context' : Value} (hcontext : ∀ other, other ≠ x → context.member other = context'.member other)
    {m : σ} {n : τ} (hmn : R m n) (hq : Q (host.render tools name stmts context m).2) :
    (host.render tools name stmts context m).1.toOption = (host'.render tools name' stmts context' n).1.toOption ∧
      R (host.render tools name stmts context m).2 (host'.render tools name' stmts context' n).2 := by
  have henv : Surroundings.Blind x R Q
      ⟨name, Escaping.ofName name, tools, host.insert tools (depthLimit / 10)⟩
      ⟨name', Escaping.ofName name', tools, host'.insert tools (depthLimit / 10)⟩ :=
    ⟨hname, hname, rfl, h.insert tools _⟩
  have hstart : Running.Alike x R ⟨[{ context }], m⟩ ⟨[{ context := context' }], n⟩ :=
    ⟨.cons ⟨rfl, rfl, hcontext⟩ .nil, hmn⟩
  obtain ⟨hanswer, hend⟩ := (henv.execAll hs).alike _ _ hstart hq
  exact ⟨toOption_map_congr hanswer Prod.snd, hend.memory⟩

end Blind
end Host
end ViewBridge.Template
