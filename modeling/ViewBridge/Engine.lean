import ViewBridge.Lookup.Resolver
import ViewBridge.Template.Rendering
import ViewBridge.Template.Reader
/-!
# The render engine

An engine renders the templates of a project. Every template it needs, also an inserted one, is found by the
resolver, translated if it is a legacy one, read, and then kept under the name it was asked for until the
engine is told to reload; what could not be found or read leaves nothing behind. Rendering changes nothing
but what is kept.

Results:
* `fetch_kept`: a template that is kept is not looked for again.
* `fetch_failed`: a template that could not be loaded is not kept.
* `reload_kept`: after a reload nothing is kept.
-/
namespace ViewBridge

/-- What rendering remembers: the templates it read, by requested name, and the translated texts. -/
structure EngineMemory where
  kept : List (Chars × List Template.Stmt) := []
  cache : Cache := {}

/-- A render engine. -/
structure Engine where
  resolver : Resolver
  functions : List Helper
  constants : List (Chars × Value)
  kept : List (Chars × List Template.Stmt) := []

namespace Engine

/-- An engine around a resolver, which must translate to the dialect that the engine speaks. -/
def ofResolver (resolver : Resolver) (settings : EngineSettings) : Except Error Engine :=
  if resolver.translator.dialect ≠ .minijinja then
    .error (.config (.wrongDialect Dialect.minijinja.name resolver.translator.dialect.name))
  else
    (Config.helpers settings.functions).map fun functions =>
      { resolver, functions, constants := settings.constants.map fun c => (c.1, .ofJson c.2) }

/-- The engine of a project, with the search path as its directories are now. -/
def ofConfig (t : FileTree) (c : Config) : Except Error Engine := do
  c.validate
  ofResolver (Resolver.ofConfig t c .minijinja) c.engine

/-- The functions that templates can call at a time. -/
def tools (e : Engine) (now : Instant) : Template.Toolbox :=
  { enabled := e.functions
    context :=
      { constants := e.constants
        extension := e.resolver.translator.extension.dropWhile (· == '.')
        now } }

/-- Fetch the template of a name: a kept one, or one that is found, read and kept from now on. -/
def fetch (resolver : Resolver) (t : FileTree) (name : Chars) (m : EngineMemory) :
    Except RenderError (Option (List Template.Stmt)) × EngineMemory :=
  match m.kept.lookup name with
  | some stmts => (.ok (some stmts), m)
  | none =>
    match resolver.load t m.cache name with
    | (.error e, cache) =>
      (.error { kind := .invalidOperation, detail := some e.message }, { m with cache })
    | (.ok none, cache) => (.ok none, { m with cache })
    | (.ok (some source), cache) =>
      match Template.read source with
      | .error kind => (.error { kind }, { m with cache })
      | .ok stmts => (.ok (some stmts), { kept := (name, stmts) :: m.kept, cache })

theorem fetch_kept {resolver : Resolver} {t : FileTree} {name : Chars} {m : EngineMemory}
    {stmts : List Template.Stmt} (h : m.kept.lookup name = some stmts) :
    fetch resolver t name m = (.ok (some stmts), m) := by
  simp only [fetch, h]

theorem fetch_failed {resolver : Resolver} {t : FileTree} {name : Chars} {m m' : EngineMemory}
    {e : RenderError} (h : fetch resolver t name m = (.error e, m')) : m'.kept = m.kept := by
  unfold fetch at h
  repeat' split at h
  all_goals simp only [Prod.mk.injEq, reduceCtorEq, false_and] at h
  all_goals (rw [← h.2])

/-- The engine's host for templates. -/
def host (e : Engine) (t : FileTree) : Template.Host EngineMemory := ⟨fetch e.resolver t⟩

/-- The values that a template is rendered with: those given, and its own name. -/
def contextOf (name : Chars) (context : Value) : Value :=
  let members := match context with
    | .map members => members
    | _ => []
  .map (Value.insert (.ofChars "template".toList) (.ofChars name) members)

/-- Render statements as the template of a name; the text or the failure, the engine and the cache after
it. -/
def renderStmts (e : Engine) (t : FileTree) (now : Instant) (m : EngineMemory) (name : Chars)
    (stmts : List Template.Stmt) (context : Value) : Except Error Chars × Engine × Cache :=
  let (result, m) := (e.host t).render (e.tools now) name stmts context m
  ((match result with
    | .ok out => .ok out
    | .error cause => .error (.render cause)), { e with kept := m.kept }, m.cache)

/-- Render the template of a name. -/
def render (e : Engine) (t : FileTree) (cache : Cache) (now : Instant) (name : Chars)
    (context : Value) : Except Error Chars × Engine × Cache :=
  match fetch e.resolver t name ⟨e.kept, cache⟩ with
  | (.error cause, m) => (.error (.render cause), { e with kept := m.kept }, m.cache)
  | (.ok none, m) =>
    (.error (.templateNotFound name e.resolver.searchPath.dirs), { e with kept := m.kept }, m.cache)
  | (.ok (some stmts), m) => e.renderStmts t now m name stmts (contextOf name context)

/-- The name that stands for a template without one. -/
def anonymous : Chars := "<string>".toList

/-- Translate and render a template that is given as a text. -/
def renderText (e : Engine) (t : FileTree) (cache : Cache) (now : Instant) (source : Chars)
    (context : Value) : Except Error Chars × Engine × Cache :=
  match Template.read (e.resolver.translator.translate source) with
  | .error kind => (.error (.render { kind }), e, cache)
  | .ok stmts => e.renderStmts t now ⟨e.kept, cache⟩ anonymous stmts context

/-- The engine with no template kept. -/
def reload (e : Engine) : Engine := { e with kept := [] }

theorem reload_kept (e : Engine) : e.reload.kept = [] := rfl

end Engine
end ViewBridge
