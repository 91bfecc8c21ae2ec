import ViewBridge.Proofs.Loop.Reading
import ViewBridge.Proofs.Template.Run
/-!
# Rendered loops

A loop opens a frame, binds its numbered names to key and element in each round and gives them to `value` and
`key` in that same frame. What an inner loop binds is gone with its frame, so behind it the names stand for
what they stood for before.

Results:
* `sees_round`: in a round, the names stand for key and element of that round.
* `endsRound_naming`: the body of a loop is executed behind the naming of key and element.
* `exec_loop`: a loop writes what its body writes in each round, and its frame is gone behind it.
* `writes_stmts`: the statements of a template write what the template prints.
-/
namespace ViewBridge.LoopTemplate

open Template Translator

variable {σ : Type}

/-! ## What is written -/

/-- Statements write a text and leave everything as it was; or else they fail. -/
def Writes (env : Surroundings σ) (stmts : List Stmt) (r : Running σ) (out : Option Chars) : Prop :=
  match out with
  | some s => (Stmt.execAll env stmts).run r = (.ok (.onward, s), r)
  | none => ∃ e r', (Stmt.execAll env stmts).run r = (.error e, r')

section
variable {env : Surroundings σ} {stmts : List Stmt} {r : Running σ} {out : Option Chars}

/-- A statement that writes a text, with more statements behind it. -/
theorem writes_cons {stmt : Stmt} {s : Chars} (hstmt : (stmt.exec env).run r = (.ok (.onward, s), r))
    (h : Writes env stmts r out) : Writes env (stmt :: stmts) r (out.map (s ++ ·)) := by
  have hrun := Stmt.run_execAll_cons hstmt stmts
  cases out with
  | some out =>
    rw [h] at hrun
    exact hrun
  | none =>
    obtain ⟨e, r', hfail⟩ := h
    rw [hfail] at hrun
    exact ⟨e, r', hrun⟩

theorem writes_data (h : Writes env stmts r out) (s : Chars) :
    Writes env (dataStmts s ++ stmts) r (out.map (s ++ ·)) := by
  rw [dataStmts]
  split
  · rename_i hs
    rw [hs]
    cases out <;> exact h
  · exact writes_cons (Stmt.run_exec_data env s r) h

/-- Text and a statement, with more statements behind them. -/
theorem writes_lead {stmt : Stmt} {s : Chars} (hstmt : (stmt.exec env).run r = (.ok (.onward, s), r))
    (h : Writes env stmts r out) (lead : Chars) :
    Writes env (dataStmts lead ++ stmt :: stmts) r (out.map fun more => lead ++ s ++ more) := by
  have hall := writes_data (writes_cons hstmt h) lead
  rw [Option.map_map] at hall
  simpa only [Function.comp_def, ← List.append_assoc] using hall

/-- A statement that fails. -/
theorem writes_cons_of_error {stmt : Stmt} {e : RenderError} {r' : Running σ}
    (hstmt : (stmt.exec env).run r = (.error e, r')) : Writes env (stmt :: stmts) r none := by
  refine ⟨e, r', ?_⟩
  rw [Stmt.execAll, Run.run_bind_error hstmt]

end

/-! ## Names in frames -/

/-- What names stand for in frames, apart from that of the loop itself. -/
def Sees (tools : Toolbox) (frames : List Frame) (around : Chars → Value) : Prop :=
  ∀ name, name ≠ "loop".toList →
    ((lookupIn frames name).or (tools.function? name)).getD .undefined = around name

/-- The names that the loop at a depth binds. -/
def bound (depth : Nat) : List Chars :=
  [numbered "key" depth, numbered "value" depth, "value".toList, "key".toList]

/-- A frame in which nothing else is bound. -/
def Own (depth : Nat) (f : Frame) : Prop := ∀ name, name ∉ bound depth → f.locals.lookup name = none

theorem Own.bind {depth : Nat} {f : Frame} (h : Own depth f) {name : Chars} (hname : name ∈ bound depth) (v : Value) :
    Own depth (f.bind name v) := by
  intro other hother
  have hne : other ≠ name := by
    rintro rfl
    exact hother hname
  rw [Frame.bind, Table.lookup_put, if_neg hne]
  exact h other hother

/-- A frame in a round, before anything in the loop is executed. -/
def entered (depth : Nat) (f : Frame) (cycle : Cycle) (key element : Value) : Frame :=
  ((({ f with cycle := some cycle } : Frame).bind (numbered "key" depth) key).bind
    (numbered "value" depth) element)

/-- A frame in a round, with key and element under all of their names. -/
def inFrame (depth : Nat) (f : Frame) (cycle : Cycle) (key element : Value) : Frame :=
  ((entered depth f cycle key element).bind "value".toList element).bind "key".toList key

section
variable {depth : Nat} {f : Frame}

theorem own_inFrame (h : Own depth f) (cycle : Cycle) (key element : Value) :
    Own depth (inFrame depth f cycle key element) := by
  have hcycle : Own depth { f with cycle := some cycle } := h
  exact (((hcycle.bind (by simp [bound]) _).bind (by simp [bound]) _).bind (by simp [bound]) _).bind
    (by simp [bound]) _

theorem numbered_key_ne_value (n : Nat) : numbered "key" depth ≠ numbered "value" n := by
  intro h
  simp [numbered] at h

theorem numbered_ne {word : String} {plain : Chars} (hplain : plain.any Text.isDigit = false) :
    numbered word depth ≠ plain := by
  obtain ⟨c, hc, hdigit⟩ := exists_digit_numbered word depth
  exact ne_of_digit hc hdigit hplain

theorem lookup_entered_value (cycle : Cycle) (key element : Value) :
    (entered depth f cycle key element).lookup (numbered "value" depth) = some element :=
  Frame.lookup_bind_self _ _ _

theorem lookup_entered_key (cycle : Cycle) (key element : Value) :
    (entered depth f cycle key element).lookup (numbered "key" depth) = some key := by
  rw [entered, Frame.lookup_bind_of_ne _ (numbered_key_ne_value depth)]
  exact Frame.lookup_bind_self _ _ _

/-- What names stand for in the frame of a round. -/
theorem lookup_inFrame (h : Own depth f) (cycle : Cycle) (key element : Value) {name : Chars}
    (hloop : name ≠ "loop".toList) :
    (inFrame depth f cycle key element).lookup name =
      if name = "value".toList ∨ name = numbered "value" depth then some element
      else if name = "key".toList ∨ name = numbered "key" depth then some key
      else none := by
  have hkey : "value".toList ≠ "key".toList := by decide
  have hplain : numbered "value" depth ≠ "key".toList := numbered_ne (by decide)
  have hvalue : numbered "key" depth ≠ "value".toList := numbered_ne (by decide)
  split
  · rename_i hname
    rcases hname with rfl | rfl
    · rw [inFrame, Frame.lookup_bind_of_ne _ hkey, Frame.lookup_bind_self]
    · rw [inFrame, Frame.lookup_bind_of_ne _ hplain, Frame.lookup_bind_of_ne _ (numbered_ne (by decide)),
        lookup_entered_value]
  · rename_i hname
    split
    · rename_i hname'
      rcases hname' with rfl | rfl
      · exact Frame.lookup_bind_self _ _ _
      · rw [inFrame, Frame.lookup_bind_of_ne _ (numbered_ne (by decide)), Frame.lookup_bind_of_ne _ hvalue,
          lookup_entered_key]
    · rename_i hname'
      have hlocals := own_inFrame h cycle key element name (by
        simp only [bound, List.mem_cons, List.not_mem_nil, or_false]
        tauto)
      have hcycle : (inFrame depth f cycle key element).cycle = some cycle := rfl
      simp only [Frame.lookup, hlocals, hcycle, hloop, if_false]

/-- In a round, the names stand for key and element of that round. -/
theorem sees_round {tools : Toolbox} {frames : List Frame} {around : Chars → Value} (h : Sees tools frames around)
    (hf : Own depth f) (cycle : Cycle) (key element : Value) :
    Sees tools (inFrame depth f cycle key element :: frames) (inRound depth key element around) := by
  intro name hloop
  have hframes : lookupIn (inFrame depth f cycle key element :: frames) name =
      ((inFrame depth f cycle key element).lookup name).or (lookupIn frames name) := by
    rw [lookupIn, List.findSome?_cons]
    cases (inFrame depth f cycle key element).lookup name <;> rfl
  rw [hframes, lookup_inFrame hf cycle key element hloop, inRound]
  split
  · rfl
  · split
    · rfl
    · exact h name hloop

end

/-! ## Expressions -/

section
variable {env : Surroundings σ} {r : Running σ} {name : Chars} {v : Value}

theorem run_value_of_eval {e : Expr}
    (h : e.eval ⟨r.frames, env.tools, env.template, env.escaping⟩ = .ok v) :
    (env.value e).run r = (.ok v, r) := by
  rw [Surroundings.value, Run.run_bind_ok (Run.run_frames r), h]
  rfl

theorem run_value_of_eval_error {e : Expr} {cause : RenderError}
    (h : e.eval ⟨r.frames, env.tools, env.template, env.escaping⟩ = .error cause) :
    (env.value e).run r = (.error cause, r) := by
  rw [Surroundings.value, Run.run_bind_ok (Run.run_frames r), h]
  rfl

theorem eval_name {around : Chars → Value} {s : Scope} (h : Sees s.tools s.frames around)
    (hname : name ≠ "loop".toList) (line : Nat) : (Expr.var line name).eval s = .ok (around name) := by
  rw [Expr.eval, Scope.lookup?, h name hname]

theorem apply_of_find? {mode : Escaping} {filter : Chars} {reading : Arguments Value}
    (h : Filter.find? mode filter = some reading) (args : List Value) :
    Filter.apply mode filter args [] = reading.run args := by
  unfold Filter.apply
  rw [h]
  simp only [Filter.Options.asArguments, if_true, List.append_nil]

theorem apply_safe (mode : Escaping) (v : Value) :
    Filter.apply mode "safe".toList [v] [] = .ok (.safeText v.print) := by
  have hfind : Filter.find? mode "safe".toList = some (do
      let s ← Arguments.required Arguments.printed
      Arguments.done
      pure (.safeText s)) := rfl
  rw [apply_of_find? hfind]
  rfl

theorem apply_pairs (mode : Escaping) (v : Value) :
    Filter.apply mode "legacy_pairs".toList [v] [] = v.pairs.map .seq := by
  have hfind : Filter.find? mode "legacy_pairs".toList = some (Helper.unary fun v => v.pairs.map .seq) := rfl
  rw [apply_of_find? hfind]
  have hrun (result : Except RenderError Value) : (Helper.unary fun _ => result).run [v] = result := by
    cases result <;> rfl
  exact hrun _

theorem pairs_of_rounds {all : List (Value × Value)} (h : rounds v = some all) :
    v.pairs = .ok (all.map fun r => Value.pairOf r.1 r.2) := by
  have hmembers (members : List (Value × Value)) :
      List.zipWith Value.pairOf (members.map (·.1)) (members.map (·.2)) =
        members.map fun r => Value.pairOf r.1 r.2 := by
    rw [List.zipWith_map, List.zipWith_self]
  cases v with
  | undefined | none => cases h; rfl
  | seq items | series items =>
    cases h
    rw [List.map_zip_eq_zipWith]
    rfl
  | map members =>
    cases h
    exact congrArg Except.ok (hmembers _)
  | _ => cases h

theorem pairs_of_no_rounds (h : rounds v = none) : v.pairs = .error v.notIterable := by
  cases v <;> first | rfl | cases h

/-- What the names of a template print. -/
theorem exec_output {around : Chars → Value} (h : Sees env.tools r.frames around) (hname : name ≠ "loop".toList)
    (line : Nat) : ((Stmt.output (.filter (.var line name) "safe".toList [] [])).exec env).run r =
      (.ok (.onward, (around name).print), r) := by
  have heval := Expr.eval_filter (eval_name (s := ⟨r.frames, env.tools, env.template, env.escaping⟩) h hname line)
    "safe".toList
  rw [apply_safe] at heval
  rw [Stmt.exec, Run.run_bind_ok (run_value_of_eval heval)]
  rfl

/-- What a loop goes through. -/
theorem run_pairs {around : Chars → Value} (h : Sees env.tools r.frames around) (hname : name ≠ "loop".toList)
    (line : Nat) : match rounds (around name) with
      | some all => (env.value (.filter (.var line name) "legacy_pairs".toList [] [])).run r =
          (.ok (.seq (all.map fun r => Value.pairOf r.1 r.2)), r)
      | none => ∃ e, (env.value (.filter (.var line name) "legacy_pairs".toList [] [])).run r = (.error e, r) := by
  have heval := Expr.eval_filter (eval_name (s := ⟨r.frames, env.tools, env.template, env.escaping⟩) h hname line)
    "legacy_pairs".toList
  rw [apply_pairs] at heval
  cases hrounds : rounds (around name) with
  | some all =>
    rw [pairs_of_rounds hrounds] at heval
    exact run_value_of_eval heval
  | none =>
    rw [pairs_of_no_rounds hrounds] at heval
    exact ⟨_, run_value_of_eval_error heval⟩

end

/-! ## Rounds -/

section
variable {env : Surroundings σ} {frames : List Frame} {memory : σ} {depth : Nat}

/-- The names that a loop gives to key and element. -/
def naming (depth line : Nat) : List Stmt :=
  [.assign (.name "value".toList) (.var line (numbered "value" depth)),
    .assign (.name "key".toList) (.var line (numbered "key" depth))]

/-- A name is given to what another one stands for. -/
theorem exec_assign {f : Frame} {name : Chars} {v : Value} (h : f.lookup name = some v) (target : Chars)
    (line : Nat) : ((Stmt.assign (.name target) (.var line name)).exec env).run ⟨f :: frames, memory⟩ =
      (.ok (.onward, []), ⟨f.bind target v :: frames, memory⟩) := by
  have heval : (Expr.var line name).eval ⟨f :: frames, env.tools, env.template, env.escaping⟩ = .ok v := by
    simp only [Expr.eval, Scope.lookup?, lookupIn, List.findSome?_cons, h, Option.some_or, Option.getD_some]
  rw [Stmt.exec, Run.run_bind_ok (run_value_of_eval heval)]
  rfl

/-- A round is bound to the numbered names first, and these give key and element to the plain ones. -/
theorem run_naming (line : Nat) (f : Frame) (cycle : Cycle) (key element : Value) (body : List Stmt) :
    (Stmt.execAll env (naming depth line ++ body)).run ⟨entered depth f cycle key element :: frames, memory⟩ =
      (Stmt.execAll env body).run ⟨inFrame depth f cycle key element :: frames, memory⟩ := by
  have hkey : ((entered depth f cycle key element).bind "value".toList element).lookup (numbered "key" depth) =
      some key := by
    rw [Frame.lookup_bind_of_ne _ (numbered_ne (by decide)), lookup_entered_key]
  -- an assignment writes nothing
  have hcons {stmt : Stmt} {r r' : Running σ} (h : (stmt.exec env).run r = (.ok (.onward, []), r'))
      (rest : List Stmt) : (Stmt.execAll env (stmt :: rest)).run r = (Stmt.execAll env rest).run r' := by
    rw [Stmt.run_execAll_cons h]
    rcases (Stmt.execAll env rest).run r' with ⟨_ | _, _⟩ <;> rfl
  rw [naming, List.cons_append, List.cons_append, List.nil_append,
    hcons (exec_assign (lookup_entered_value cycle key element) _ line), hcons (exec_assign hkey _ line)]
  rfl

/-- The body of a loop is executed behind the naming. -/
theorem endsRound_naming {line : Nat} {body : List Stmt} {out : Option Chars} {f : Frame} (hf : Own depth f)
    {cycle : Cycle} {key element : Value}
    (h : Writes env body ⟨inFrame depth f cycle key element :: frames, memory⟩ out) :
    EndsRound (Own depth) frames memory ((do
      env.bind (.several line [.name (numbered "key" depth), .name (numbered "value" depth)]) (Value.pairOf key element)
      Stmt.execAll env (naming depth line ++ body) : Run σ (Flow × Chars)).run
        ⟨{ f with cycle := some cycle } :: frames, memory⟩) out := by
  have hrun : (Stmt.execAll env (naming depth line ++ body)).run
      ⟨entered depth f cycle key element :: frames, memory⟩ = _ :=
    run_naming line f cycle key element body
  cases out with
  | none =>
    obtain ⟨e, r, hfail⟩ := h
    exact ⟨e, r, hrun.trans hfail⟩
  | some s => exact ⟨_, own_inFrame hf cycle key element, hrun.trans h⟩

/-- A loop writes what its body writes in each round, and leaves the frames as they were. -/
theorem exec_loop {around : Chars → Value} {collection : Chars} (h : Sees env.tools frames around)
    (hname : collection ≠ "loop".toList) (line : Nat) {body : List Stmt} (out : Value × Value → Option Chars)
    (hbody : ∀ (f : Frame) (cycle : Cycle) (key element : Value), Own depth f →
      Writes env body ⟨inFrame depth f cycle key element :: frames, memory⟩ (out (key, element))) :
    match (rounds (around collection)).bind (List.mapM out) with
    | some texts => ((loopStmt depth line collection body).exec env).run ⟨frames, memory⟩ =
        (.ok (.onward, texts.flatten), ⟨frames, memory⟩)
    | none => ∃ e r', ((loopStmt depth line collection body).exec env).run ⟨frames, memory⟩ = (.error e, r') := by
  have hpairs := run_pairs (r := ⟨frames, memory⟩) h hname line
  cases hrounds : rounds (around collection) with
  | none =>
    rw [hrounds] at hpairs
    obtain ⟨e, hfail⟩ := hpairs
    refine ⟨e, ⟨frames, memory⟩, ?_⟩
    rw [loopStmt, Stmt.exec, Run.run_bind_error hfail]
  | some all =>
    rw [hrounds] at hpairs
    exact Stmt.run_loop hpairs (fun r : Value × Value => Value.pairOf r.1 r.2) out rfl
      (fun f cycle r hf => endsRound_naming hf (hbody f cycle r.1 r.2 hf)) fun _ _ => rfl

end

/-! ## Templates -/

/-- The statements of a template write what the template prints. -/
theorem writes_stmts {x : LoopTemplate} (hx : x.WellFormed) {env : Surroundings σ} {frames : List Frame}
    {around : Chars → Value} (h : Sees env.tools frames around) (depth line : Nat) (memory : σ) :
    Writes env (x.stmts depth line) ⟨frames, memory⟩ (x.eval depth around) := by
  induction x generalizing frames around depth line with
  | text s =>
    have hnone : Writes env [] ⟨frames, memory⟩ (some []) := rfl
    have htext := writes_data hnone s
    rw [List.append_nil, Option.map_some, List.append_nil] at htext
    exact htext
  | output lead name rest ih =>
    have hname : name ≠ "loop".toList := hx.2.1.2 "loop" (by decide)
    have hrest := ih hx.2.2 h depth (line + lineBreaks lead)
    rw [stmts, eval_output]
    exact writes_lead (exec_output h hname (line + lineBreaks lead)) hrest lead
  | loop lead collection body rest ihb ihr =>
    have hname : collection ≠ "loop".toList := hx.2.1.2 "loop" (by decide)
    have hrest := ihr hx.2.2.2 h depth (line + lineBreaks lead + body.breaks)
    have hloop := exec_loop h hname (line + lineBreaks lead)
      (fun r => body.eval (depth + 1) (inRound (depth + 1) r.1 r.2 around))
      fun f cycle key element hf =>
        ihb hx.2.2.1 (sees_round h hf cycle key element) (depth + 1) (line + lineBreaks lead)
    rw [stmts, eval_loop]
    cases hprinted : (rounds (around collection)).bind (List.mapM fun r =>
        body.eval (depth + 1) (inRound (depth + 1) r.1 r.2 around)) with
    | none =>
      rw [hprinted] at hloop
      obtain ⟨e, r', hfail⟩ := hloop
      exact writes_data (writes_cons_of_error hfail) lead
    | some printed =>
      rw [hprinted] at hloop
      exact writes_lead hloop hrest lead

end ViewBridge.LoopTemplate
