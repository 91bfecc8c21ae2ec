import ViewBridge.Template.Evaluation
/-!
# Rendering templates

Statements write text and bind names. A loop opens a frame that lasts for all its rounds, and has an
alternative that is executed when no round was completed; branches and inserted templates use the frame they
stand in. Where templates come from is left open: a host fetches them by name and may remember what it
fetched, whether the rendering succeeds or not. How deep insertions may be nested is limited, and that limit
is what the recursion runs on.

Results:
* `execAll_data`: text is copied.
* `iterate_nil`: a loop over nothing writes nothing.
-/
namespace ViewBridge.Template

/-- How execution goes on after a statement: with the next one, out of the loop, or with its next round. -/
inductive Flow where
  | onward
  | leave
  | next
deriving DecidableEq, Repr

/-- A running template: its frames, and what the host remembers. -/
structure Running (σ : Type) where
  frames : List Frame
  memory : σ

/-- A run, which may fail; what has been remembered until then is kept. -/
abbrev Run (σ α : Type) := ExceptT RenderError (StateM (Running σ)) α

/-- Where templates come from. Fetching a name gives the statements of its template, nothing if there is no
such template, or a failure to load it. -/
structure Host (σ : Type) where
  fetch : Chars → σ → Except RenderError (Option (List Stmt)) × σ

/-- What a statement runs in: the template it stands in, the escaping there, the functions, and a way to
insert another template, which answers nothing if there is none. -/
structure Surroundings (σ : Type) where
  template : Chars
  escaping : Escaping
  tools : Toolbox
  insert : Chars → Run σ (Option Chars)

namespace Target

mutual

/-- What a target binds to a value; `s` and the line say where a failure is reported. -/
def bindings : Target → Value → Except (Nat × RenderErrorKind) (List (Chars × Value))
  | .name n, v => .ok [(n, v)]
  | .inside line, _ => .error (line, .invalidOperation)
  | .several line targets, v =>
    match Filter.walk? v with
    | some items => bindingsOf line targets items
    | none => .error (line, .cannotUnpack)

/-- What targets bind to as many items. -/
def bindingsOf (line : Nat) :
    List Target → List Value → Except (Nat × RenderErrorKind) (List (Chars × Value))
  | [], [] => .ok []
  | t :: ts, v :: vs => do
    let first ← bindings t v
    let rest ← bindingsOf line ts vs
    pure (first ++ rest)
  | _, _ => .error (line, .cannotUnpack)

end

end Target

namespace Run

variable {σ : Type}

/-- The frames of a run. -/
def frames : Run σ (List Frame) := do return (← get).frames

/-- Change the innermost frame. -/
def changeFrame (f : Frame → Frame) : Run σ Unit :=
  modify fun r => { r with frames := match r.frames with
    | [] => []
    | top :: below => f top :: below }

/-- Bind names in the innermost frame. -/
def bindAll (pairs : List (Chars × Value)) : Run σ Unit :=
  changeFrame fun f => pairs.foldl (fun f p => f.bind p.1 p.2) f

/-- Open a frame. -/
def push : Run σ Unit := modify fun r => { r with frames := {} :: r.frames }

/-- Close the innermost frame. -/
def pop : Run σ Unit := modify fun r => { r with frames := r.frames.drop 1 }

end Run

namespace Surroundings

variable {σ : Type}

/-- A failure on a line of the template. -/
def fail {α : Type} (env : Surroundings σ) (line : Nat) (kind : RenderErrorKind) : Run σ α :=
  throw { kind, place := some ⟨env.template, line⟩ }

/-- The value of an expression where a run stands. -/
def value (env : Surroundings σ) (e : Expr) : Run σ Value := do
  let frames ← Run.frames
  liftExcept (e.eval ⟨frames, env.tools, env.template, env.escaping⟩)
where
  /-- A result as a run. -/
  liftExcept (r : Except RenderError Value) : Run σ Value :=
    match r with
    | .ok v => pure v
    | .error e => throw e

/-- Bind a target to a value. -/
def bind (env : Surroundings σ) (target : Target) (v : Value) : Run σ Unit :=
  match target.bindings v with
  | .ok pairs => Run.bindAll pairs
  | .error (line, kind) => env.fail line kind

/-- What a body that wrote a text stands for: markup, unless nothing is escaped. -/
def captured (env : Surroundings σ) (out : Chars) : Value :=
  if env.escaping = .plain then .ofChars out else .safeText out

/-- The value of a text that a body wrote, filtered. -/
def filteredText (env : Surroundings σ) (line : Nat) (filters : List Filtering) (out : Chars) :
    Run σ Value :=
  env.value (filters.foldl Filtering.over (.const line (env.captured out)))

/-- The escaping that a value asks for: one by name, or whether to escape at all. -/
def escapingOf? (env : Surroundings σ) (v : Value) : Option Escaping :=
  match v with
  | .text _ s =>
    if s = "html".toList then some .markup
    else if s = "json".toList then some .json
    else if s = "none".toList then some .plain
    else none
  | v =>
    if v.same (.bool true) then
      let usual := Escaping.ofName env.template
      some (if usual = .plain then .markup else usual)
    else some .plain

/-- The items that fulfil the condition of a loop; it sees them under the names of the target. -/
def chosen (env : Surroundings σ) (target : Target) (condition : Expr) : List Value → Run σ (List Value)
  | [] => pure []
  | v :: rest => do
    env.bind target v
    let fulfilled := (← env.value condition).isTrue
    let more ← chosen env target condition rest
    pure (if fulfilled then v :: more else more)

/-- Bind targets to the values of expressions, one after the other. -/
def bindEach (env : Surroundings σ) : List (Target × Expr) → Run σ Unit
  | [] => pure ()
  | (target, e) :: rest => do
    env.bind target (← env.value e)
    bindEach env rest

/-- The names that the value of an insertion offers; the first that there is a template for is taken. -/
def choices (v : Value) : List Value :=
  match v with
  | .seq _ | .series _ | .map _ => (Filter.walk? v).getD []
  | v => [v]

/-- Insert the first of the offered templates that there is. -/
def insertFirst (env : Surroundings σ) (line : Nat) : List Value → Run σ (Option Chars)
  | [] => pure none
  | v :: vs => do
    match v with
    | .text _ name =>
      let inserted ← tryCatch (env.insert name) fun e => throw (e.at_ ⟨env.template, line⟩)
      match inserted with
      | some out => pure (some out)
      | none => insertFirst env line vs
    | _ => env.fail line .invalidOperation

/-- Insert the template that a value names. -/
def insertion (env : Surroundings σ) (line : Nat) (v : Value) (lenient : Bool) : Run σ Chars := do
  let offered := choices v
  match ← insertFirst env line offered with
  | some out => pure out
  | none => if lenient || offered.isEmpty then pure [] else env.fail line .templateNotFound

/-- The rounds of a loop: how many are completed, and what they write, until one leaves the loop. -/
def iterate (env : Surroundings σ) (target : Target) (length : Nat) (body : Run σ (Flow × Chars)) :
    (index : Nat) → (previous : Value) → List Value → Run σ (Nat × Chars)
  | index, _, [] => pure (index, [])
  | index, previous, v :: rest => do
    Run.changeFrame fun f =>
      { f with cycle := some ⟨index, length, previous, (rest.head?).getD .undefined⟩ }
    env.bind target v
    let (flow, out) ← body
    if flow = .leave then pure (index, out)
    else do
      let (completed, more) ← iterate env target length body (index + 1) v rest
      pure (completed, out ++ more)

theorem iterate_nil (env : Surroundings σ) (target : Target) (length : Nat) (body : Run σ (Flow × Chars))
    (index : Nat) (previous : Value) :
    env.iterate target length body index previous [] = pure (index, []) := rfl

end Surroundings

/-- How deep frames and insertions may be nested together; an insertion counts as ten frames. -/
def depthLimit : Nat := 500

namespace Stmt

variable {σ : Type}

mutual

/-- Execute a statement: how to go on, and what it writes. -/
def exec (env : Surroundings σ) : Stmt → Run σ (Flow × Chars)
  | .data s => pure (.onward, s)
  | .output e => do
    let v ← env.value e
    match env.escaping.write v with
    | .ok out => pure (.onward, out)
    | .error kind => env.fail e.lastLine kind
  | .branch test yes no => do
    let v ← env.value test
    if v.isTrue then execAll env yes else execAll env no
  | .loop target source condition body otherwise => do
    let v ← env.value source
    match Filter.walk? v with
    | none => env.fail source.lastLine .invalidOperation
    | some items => do
      let items ← match condition with
        | none => pure items
        | some condition => do
          Run.push
          let items ← env.chosen target condition items
          Run.pop
          pure items
      Run.push
      let (completed, out) ← env.iterate target items.length (execAll env body) 0 .undefined items
      Run.pop
      if completed = 0 then do
        let (flow, more) ← execAll env otherwise
        pure (flow, out ++ more)
      else pure (.onward, out)
  | .assign target e => do
    let v ← env.value e
    env.bind target v
    pure (.onward, [])
  | .capture target line filters body => do
    let (flow, out) ← execAll env body
    let v ← env.filteredText line filters out
    env.bind target v
    pure (flow, [])
  | .filtered line filters body => do
    let (flow, out) ← execAll env body
    let v ← env.filteredText line filters out
    match env.escaping.write v with
    | .ok out => pure (flow, out)
    | .error kind => env.fail line kind
  | .scoped bindings body => do
    Run.push
    env.bindEach bindings
    let (flow, out) ← execAll env body
    Run.pop
    pure (flow, out)
  | .escaped mode body => do
    let v ← env.value mode
    match env.escapingOf? v with
    | some escaping => execAll { env with escaping } body
    | none => env.fail mode.lastLine .invalidOperation
  | .effect e => do
    let _ ← env.value e
    pure (.onward, [])
  | .insertion name lenient => do
    let v ← env.value name
    let out ← env.insertion name.lastLine v lenient
    pure (.onward, out)
  | .leave => pure (.leave, [])
  | .next => pure (.next, [])

/-- Execute statements one after the other, until one leaves the loop or its round. -/
def execAll (env : Surroundings σ) : List Stmt → Run σ (Flow × Chars)
  | [] => pure (.onward, [])
  | stmt :: rest => do
    let (flow, out) ← exec env stmt
    if flow = .onward then do
      let (flow, more) ← execAll env rest
      pure (flow, out ++ more)
    else pure (flow, out)

end

theorem execAll_data (env : Surroundings σ) (s : Chars) (r : Running σ) :
    (execAll env [.data s]).run r = (.ok (.onward, s), r) := by
  simp [execAll, exec]
  rfl

end Stmt

namespace Host

variable {σ : Type}

/-- Fetch a template in a run. -/
def fetching (host : Host σ) (name : Chars) : Run σ (Option (List Stmt)) := do
  let r ← get
  let (found, memory) := host.fetch name r.memory
  set { r with memory }
  match found with
  | .ok found => pure found
  | .error e => throw e

/-- What a failure inside an inserted template becomes outside of it. -/
def wrapped {α : Type} (run : Run σ α) : Run σ α := tryCatch run fun _ => throw { kind := .badInclude }

/-- Insert a template; `levels` more insertions may be nested in it. -/
def insert (host : Host σ) (tools : Toolbox) : (levels : Nat) → Chars → Run σ (Option Chars)
  | 0, name => do
    match ← host.fetching name with
    | none => pure none
    | some _ => throw Value.invalid
  | levels + 1, name => do
    match ← host.fetching name with
    | none => pure none
    | some stmts =>
      let depth := (← Run.frames).length + 10 * (depthLimit / 10 - levels)
      if depthLimit < depth then throw Value.invalid
      else do
        let (_, out) ← wrapped (Stmt.execAll ⟨name, Escaping.ofName name, tools, insert host tools levels⟩ stmts)
        pure (some out)

/-- Render statements as a template of a name, with a context: the text or the failure, and what the host
remembers then. -/
def render (host : Host σ) (tools : Toolbox) (name : Chars) (stmts : List Stmt) (context : Value)
    (memory : σ) : Except RenderError Chars × σ :=
  let env : Surroundings σ :=
    ⟨name, Escaping.ofName name, tools, host.insert tools (depthLimit / 10)⟩
  let (result, r) := (Stmt.execAll env stmts).run ⟨[{ context }], memory⟩
  (result.map Prod.snd, r.memory)

end Host
end ViewBridge.Template
