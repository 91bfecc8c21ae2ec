import ViewBridge.Template.Rendering
/-!
# Runs

A run goes from frames and a memory to a result and to frames and a memory. Two runs over different memories
are related when they go the same way from related memories: the same result, the same frames, and related
memories again.

Results:
* `run_bind`: a run goes on after another one only if that one succeeded.
* `run_execAll_cons`: what a statement writes stands in front of what those behind it write.
* `Related.bind`, `Related.tryCatch`: runs that are put together of related runs are related.
* `run_iterate`: the rounds of a loop, by what one round does.
* `run_loop`: a loop, by what one round does.
-/
namespace ViewBridge.Template

namespace Run

variable {σ τ α β : Type}

/-! ## How runs go -/

@[simp] theorem run_pure (a : α) (r : Running σ) : (pure a : Run σ α).run r = (.ok a, r) := rfl

@[simp] theorem run_throw (e : RenderError) (r : Running σ) :
    (throw e : Run σ α).run r = (.error e, r) := rfl

theorem run_bind (x : Run σ α) (f : α → Run σ β) (r : Running σ) :
    (x >>= f).run r = match x.run r with
      | (.ok a, r') => (f a).run r'
      | (.error e, r') => (.error e, r') := by
  have hbind : (x >>= f).run r = (ExceptT.bindCont f (x.run r).1).run (x.run r).2 := rfl
  rw [hbind]
  rcases x.run r with ⟨_ | _, r'⟩ <;> rfl

theorem run_bind_ok {x : Run σ α} {r r' : Running σ} {a : α} (h : x.run r = (.ok a, r')) (f : α → Run σ β) :
    (x >>= f).run r = (f a).run r' := by
  rw [run_bind, h]

theorem run_bind_error {x : Run σ α} {r r' : Running σ} {e : RenderError} (h : x.run r = (.error e, r'))
    (f : α → Run σ β) : (x >>= f).run r = (.error e, r') := by
  rw [run_bind, h]

theorem run_tryCatch (x : Run σ α) (f : RenderError → Run σ α) (r : Running σ) :
    (tryCatch x f).run r = match x.run r with
      | (.ok a, r') => (.ok a, r')
      | (.error e, r') => (f e).run r' := by
  rw [ExceptT.run]
  simp only [tryCatch, tryCatchThe, MonadExceptOf.tryCatch, ExceptT.tryCatch, ExceptT.mk, bind, StateT.bind,
    ExceptT.run]
  rcases x r with ⟨_ | _, r'⟩ <;> rfl

@[simp] theorem run_get (r : Running σ) : (get : Run σ (Running σ)).run r = (.ok r, r) := rfl

@[simp] theorem run_set (r r' : Running σ) : (set r' : Run σ PUnit).run r = (.ok ⟨⟩, r') := rfl

@[simp] theorem run_frames (r : Running σ) : (frames : Run σ _).run r = (.ok r.frames, r) := rfl

@[simp] theorem run_changeFrame (f : Frame → Frame) (r : Running σ) :
    (changeFrame f).run r = (.ok (), { r with frames := match r.frames with
      | [] => []
      | top :: below => f top :: below }) := rfl

@[simp] theorem run_push (r : Running σ) :
    (push : Run σ _).run r = (.ok (), { r with frames := {} :: r.frames }) := rfl

@[simp] theorem run_pop (r : Running σ) :
    (pop : Run σ _).run r = (.ok (), { r with frames := r.frames.drop 1 }) := rfl

/-! ## Related runs -/

/-- The runs have one result and one way through the frames from related memories, and leave related ones. -/
def Related (R : σ → τ → Prop) (x : Run σ α) (y : Run τ α) : Prop :=
  ∀ frames m n, R m n → ∃ result frames' m' n',
    x.run ⟨frames, m⟩ = (result, ⟨frames', m'⟩) ∧ y.run ⟨frames, n⟩ = (result, ⟨frames', n'⟩) ∧ R m' n'

variable {R : σ → τ → Prop}

theorem Related.pure (a : α) : Related R (pure a) (pure a) :=
  fun frames m n h => ⟨.ok a, frames, m, n, rfl, rfl, h⟩

theorem Related.throw (e : RenderError) : Related R (throw e : Run σ α) (throw e) :=
  fun frames m n h => ⟨.error e, frames, m, n, rfl, rfl, h⟩

theorem Related.bind {x : Run σ α} {y : Run τ α} {f : α → Run σ β} {g : α → Run τ β} (hxy : Related R x y)
    (hfg : ∀ a, Related R (f a) (g a)) : Related R (x >>= f) (y >>= g) := by
  intro frames m n h
  obtain ⟨result, frames', m', n', hx, hy, h'⟩ := hxy frames m n h
  rw [run_bind, run_bind, hx, hy]
  cases result with
  | ok a => exact hfg a frames' m' n' h'
  | error e => exact ⟨.error e, frames', m', n', rfl, rfl, h'⟩

theorem Related.tryCatch {x : Run σ α} {y : Run τ α} {f : RenderError → Run σ α} {g : RenderError → Run τ α}
    (hxy : Related R x y) (hfg : ∀ e, Related R (f e) (g e)) :
    Related R (tryCatch x f) (tryCatch y g) := by
  intro frames m n h
  obtain ⟨result, frames', m', n', hx, hy, h'⟩ := hxy frames m n h
  rw [run_tryCatch, run_tryCatch, hx, hy]
  cases result with
  | ok a => exact ⟨.ok a, frames', m', n', rfl, rfl, h'⟩
  | error e => exact hfg e frames' m' n' h'

theorem Related.frames : Related R (frames : Run σ _) frames :=
  fun frames m n h => ⟨.ok frames, frames, m, n, rfl, rfl, h⟩

theorem Related.changeFrame (f : Frame → Frame) : Related R (changeFrame f : Run σ _) (changeFrame f) :=
  fun _ m n h => ⟨.ok (), _, m, n, rfl, rfl, h⟩

theorem Related.push : Related R (push : Run σ _) push :=
  fun _ m n h => ⟨.ok (), _, m, n, rfl, rfl, h⟩

theorem Related.pop : Related R (pop : Run σ _) pop :=
  fun _ m n h => ⟨.ok (), _, m, n, rfl, rfl, h⟩

/-- A choice between related runs. -/
theorem Related.ite {p : Prop} [Decidable p] {x x' : Run σ α} {y y' : Run τ α} (h : Related R x y)
    (h' : Related R x' y') : Related R (if p then x else x') (if p then y else y') := by
  split
  · exact h
  · exact h'

end Run

namespace Stmt

variable {σ : Type}

/-- What a statement writes stands in front of what the statements behind it write. -/
theorem run_execAll_cons {env : Surroundings σ} {stmt : Stmt} {r r' : Running σ} {s : Chars}
    (h : (exec env stmt).run r = (.ok (.onward, s), r')) (rest : List Stmt) :
    (execAll env (stmt :: rest)).run r =
      (((execAll env rest).run r').1.map fun p => (p.1, s ++ p.2), ((execAll env rest).run r').2) := by
  rw [execAll, Run.run_bind_ok h]
  simp only [if_true]
  rw [Run.run_bind]
  rcases (execAll env rest).run r' with ⟨_ | _, _⟩ <;> rfl

theorem run_exec_data (env : Surroundings σ) (s : Chars) (r : Running σ) :
    (exec env (.data s)).run r = (.ok (.onward, s), r) := by
  rw [exec]
  rfl

theorem run_execAll_texts (env : Surroundings σ) (texts : List Chars) (r : Running σ) :
    (execAll env (texts.map .data)).run r = (.ok (.onward, texts.flatten), r) := by
  induction texts with
  | nil => rw [List.map_nil, execAll]; rfl
  | cons s texts ih =>
    rw [List.map_cons, run_execAll_cons (run_exec_data env s r), ih]
    rfl

end Stmt

/-! ## Rounds -/

/-- A round of a loop ends in a frame with a property and has written a text, or it has failed. -/
def EndsRound {σ : Type} (P : Frame → Prop) (frames : List Frame) (memory : σ)
    (result : Except RenderError (Flow × Chars) × Running σ) : Option Chars → Prop
  | some s => ∃ f, P f ∧ result = (.ok (.onward, s), ⟨f :: frames, memory⟩)
  | none => ∃ e r, result = (.error e, r)

namespace Surroundings

variable {σ α : Type} {env : Surroundings σ} {target : Target} {body : Run σ (Flow × Chars)} {frames : List Frame}
  {memory : σ} {P : Frame → Prop}

/-- The first round of a loop, and then the others. -/
theorem run_iterate_cons (value : α → Value) (length : Nat) (x : α) (all : List α) (index : Nat) (previous : Value)
    (f : Frame) : ∃ cycle,
      (env.iterate target length body index previous ((x :: all).map value)).run ⟨f :: frames, memory⟩ =
        ((do
          let (flow, out) ← (do
            env.bind target (value x)
            body)
          if flow = .leave then pure (index, out)
          else do
            let (completed, more) ← env.iterate target length body (index + 1) (value x) (all.map value)
            pure (completed, out ++ more)) : Run σ _).run ⟨{ f with cycle := some cycle } :: frames, memory⟩ := by
  refine ⟨⟨index, length, previous, ((all.map value).head?).getD .undefined⟩, ?_⟩
  rw [bind_assoc]
  rfl

/-- The rounds of a loop, one after the other, in a frame with a property that each round keeps: what they write, or a
failure in one of them. -/
theorem run_iterate (value : α → Value) (out : α → Option Chars)
    (hround : ∀ (f : Frame) (cycle : Cycle) (x : α), P f → EndsRound P frames memory ((do
        env.bind target (value x)
        body : Run σ (Flow × Chars)).run ⟨{ f with cycle := some cycle } :: frames, memory⟩) (out x))
    (length : Nat) (all : List α) (index : Nat) (previous : Value) {f : Frame} (hf : P f) :
    match all.mapM out with
    | some texts => ∃ f', (env.iterate target length body index previous (all.map value)).run ⟨f :: frames, memory⟩ =
        (.ok (index + all.length, texts.flatten), ⟨f' :: frames, memory⟩)
    | none => ∃ e r', (env.iterate target length body index previous (all.map value)).run ⟨f :: frames, memory⟩ =
        (.error e, r') := by
  induction all generalizing index previous f with
  | nil => exact ⟨f, rfl⟩
  | cons x all ih =>
    obtain ⟨cycle, hfirst⟩ := run_iterate_cons value length x all index previous f
    have hx := hround f cycle x hf
    rw [hfirst, List.mapM_cons]
    cases hout : out x with
    | none =>
      rw [hout] at hx
      obtain ⟨e, r', hfail⟩ := hx
      exact ⟨e, r', Run.run_bind_error hfail _⟩
    | some text =>
      rw [hout] at hx
      obtain ⟨f', hf', hwrites⟩ := hx
      have hmore := ih (index + 1) (value x) hf'
      rw [Run.run_bind_ok hwrites]
      cases htexts : all.mapM out with
      | none =>
        rw [htexts] at hmore
        obtain ⟨e, r', hfail⟩ := hmore
        exact ⟨e, r', Run.run_bind_error hfail _⟩
      | some texts =>
        rw [htexts] at hmore
        obtain ⟨f'', hdone⟩ := hmore
        refine ⟨f'', (Run.run_bind_ok hdone _).trans ?_⟩
        rw [List.length_cons, Nat.add_comm all.length 1, ← Nat.add_assoc]
        rfl

end Surroundings

/-- A loop over values, up to its rounds. -/
theorem Stmt.run_loop_open {σ : Type} {env : Surroundings σ} {target : Target} {source : Expr} {body : List Stmt}
    {r : Running σ} {v : Value} (hsource : (env.value source).run r = (.ok v, r)) {items : List Value}
    (hwalk : Filter.walk? v = some items) : ((Stmt.loop target source none body []).exec env).run r = ((do
      let (completed, out) ← env.iterate target items.length (execAll env body) 0 .undefined items
      Run.pop
      if completed = 0 then do
        let (flow, more) ← execAll env []
        pure (flow, out ++ more)
      else pure (.onward, out)) : Run σ _).run { r with frames := {} :: r.frames } := by
  rw [exec, Run.run_bind_ok hsource]
  simp only [hwalk]
  rw [Run.run_bind_ok (Run.run_pure _ _)]
  rfl

/-- A loop over values, in a frame of its own: what its rounds write, or a failure in one of them. -/
theorem Stmt.run_loop {σ α : Type} {env : Surroundings σ} {target : Target} {source : Expr} {body : List Stmt}
    {frames : List Frame} {memory : σ} {P : Frame → Prop} {v : Value}
    (hsource : (env.value source).run ⟨frames, memory⟩ = (.ok v, ⟨frames, memory⟩)) (value : α → Value)
    (out : α → Option Chars) {all : List α} (hwalk : Filter.walk? v = some (all.map value))
    (hround : ∀ (f : Frame) (cycle : Cycle) (x : α), P f → EndsRound P frames memory ((do
        env.bind target (value x)
        execAll env body : Run σ (Flow × Chars)).run ⟨{ f with cycle := some cycle } :: frames, memory⟩) (out x))
    (hempty : P {}) :
    match all.mapM out with
    | some texts => ((Stmt.loop target source none body []).exec env).run ⟨frames, memory⟩ =
        (.ok (.onward, texts.flatten), ⟨frames, memory⟩)
    | none => ∃ e r', ((Stmt.loop target source none body []).exec env).run ⟨frames, memory⟩ = (.error e, r') := by
  have hall := env.run_iterate value out hround all.length all 0 .undefined hempty
  rw [run_loop_open hsource hwalk, List.length_map]
  cases htexts : all.mapM out with
  | none =>
    rw [htexts] at hall
    obtain ⟨e, r', hfail⟩ := hall
    exact ⟨e, r', Run.run_bind_error hfail _⟩
  | some texts =>
    rw [htexts] at hall
    obtain ⟨f', hdone⟩ := hall
    refine (Run.run_bind_ok hdone _).trans ?_
    rw [Run.run_bind_ok (Run.run_pop _)]
    split
    · rw [execAll, Run.run_bind_ok (Run.run_pure _ _)]
      simp only [List.append_nil]
      rfl
    · rfl

end ViewBridge.Template
