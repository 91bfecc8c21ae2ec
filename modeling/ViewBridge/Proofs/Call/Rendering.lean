import ViewBridge.Proofs.Engine.Basic
import ViewBridge.Proofs.Loop.Rendering
import ViewBridge.Proofs.Call.Reading
import ViewBridge.Proofs.Call.Translation
/-!
# Rendering calls

What a template with one tag prints is what the expression in it comes to. A call of a function that is not enabled
comes to a failure, whatever its arguments are; but where a call is written as a filter, no function is looked up.

Results:
* `renderStmts_output`: an engine prints what the expression of an output tag comes to.
* `eval_call_of_disabled`: a call of a function that is not enabled fails.
* `renderText_call_of_disabled`: so does the rendering of a tag with such a call that is not written as a filter.
-/
namespace ViewBridge

namespace Template

/-! ## Expressions outside of all loops -/

/-- What an expression alone in an output tag prints. -/
def Scope.output (s : Scope) (x : Expr) : Except RenderError Chars := do
  let v ← x.eval s
  match s.escaping.write v with
  | .ok out => pure out
  | .error kind => throw { kind, place := some ⟨s.template, x.lastLine⟩ }

/-- An output tag writes what its expression prints. -/
theorem Stmt.run_exec_output {σ : Type} (env : Surroundings σ) (r : Running σ) (x : Expr) :
    ((Stmt.output x).exec env).run r =
      ((Scope.output ⟨r.frames, env.tools, env.template, env.escaping⟩ x).map (Prod.mk .onward), r) := by
  cases heval : x.eval ⟨r.frames, env.tools, env.template, env.escaping⟩ with
  | error cause =>
    rw [Stmt.exec, Run.run_bind_error (LoopTemplate.run_value_of_eval_error heval), Scope.output, heval]
    rfl
  | ok v =>
    rw [Stmt.exec, Run.run_bind_ok (LoopTemplate.run_value_of_eval heval), Scope.output, heval]
    cases hwrite : env.escaping.write v with
    | error kind => simp only [bind, Except.bind, hwrite]; rfl
    | ok out => simp only [bind, Except.bind, hwrite]; rfl

/-! ## Functions that are not enabled -/

section
variable {s : Scope} {f : Helper}

theorem function?_of_disabled {tools : Toolbox} (hf : f ∉ tools.enabled) : tools.function? f.name = none := by
  have every : ∀ g ∈ Helper.all, (Toolbox.global? g.name).isSome = false := by decide +kernel
  rw [Toolbox.function?, Toolbox.helper?_eq_none hf, every f f.mem_all]
  rfl

/-- The name of a function that is not enabled cannot be called, unless it stands for another function. -/
theorem call_of_disabled (hf : f ∉ s.tools.enabled) (hframes : ∀ g, lookupIn s.frames f.name ≠ some (.callable g))
    (args : List Value) : ∃ cause, s.call f.name args = .error cause := by
  rw [Scope.call]
  split
  · exact ⟨_, rfl⟩
  · rw [Scope.lookup?, function?_of_disabled hf, Option.or_none]
    cases hvalue : lookupIn s.frames f.name with
    | none => exact ⟨_, rfl⟩
    | some v =>
      cases v with
      | callable g => exact absurd hvalue (hframes g)
      | _ => exact ⟨_, rfl⟩

theorem eval_call_of_disabled (hf : f ∉ s.tools.enabled)
    (hframes : ∀ g, lookupIn s.frames f.name ≠ some (.callable g)) (line : Nat) (args : List Expr) :
    ∃ cause, (Expr.call line f.name args).eval s = .error cause := by
  rw [Expr.eval]
  cases Expr.evalAll s args with
  | error cause => exact ⟨cause, rfl⟩
  | ok vs =>
    obtain ⟨cause, hcall⟩ := call_of_disabled hf hframes vs
    refine ⟨cause.at_ ⟨s.template, Expr.lastLineOf line args⟩, ?_⟩
    simp only [bind, Except.bind, hcall, Scope.located]

end

end Template

namespace Engine

open Template Translator

/-- What an expression sees in a template that an engine renders. -/
def scope (e : Engine) (now : Instant) (name : Chars) (context : Value) : Scope :=
  ⟨[{ context }], e.tools now, name, Escaping.ofName name⟩

/-- An engine prints what the expression of an output tag comes to. -/
theorem renderStmts_output (e : Engine) (t : FileTree) (now : Instant) (m : EngineMemory) (name : Chars) (x : Expr)
    (context : Value) : (e.renderStmts t now m name [.output x] context).1 =
      ((e.scope now name context).output x).mapError .render := by
  let env : Surroundings EngineMemory :=
    ⟨name, Escaping.ofName name, e.tools now, (e.host t).insert (e.tools now) (depthLimit / 10)⟩
  have hstmt : ((Stmt.output x).exec env).run ⟨[{ context }], m⟩ =
      (((e.scope now name context).output x).map (Prod.mk .onward), ⟨[{ context }], m⟩) :=
    Stmt.run_exec_output env _ x
  simp only [renderStmts, Host.render]
  cases houtput : (e.scope now name context).output x with
  | error cause =>
    rw [houtput] at hstmt
    rw [Stmt.execAll, Run.run_bind_error hstmt]
    rfl
  | ok out =>
    rw [houtput] at hstmt
    rw [Stmt.run_execAll_cons hstmt, Stmt.execAll]
    exact congrArg Except.ok (List.append_nil out)

/-- A text whose translation is one output tag is rendered as what the expression in it comes to. -/
theorem renderText_output {e : Engine} {source : Chars} {x : Expr}
    (h : Template.read (e.resolver.translator.translate source) = .ok [.output x]) (t : FileTree) (cache : Cache)
    (now : Instant) (context : Value) : (e.renderText t cache now source context).1 =
      ((e.scope now anonymous context).output x).mapError .render := by
  simp only [renderText, h]
  exact renderStmts_output e t now ⟨e.kept, cache⟩ anonymous x context

section
variable {e : Engine} {f : Helper} {x filter : Chars}

theorem isIdentifier_filter (h : Dialect.minijinja.filterOf? f.name = some filter) : IsIdentifier filter := by
  have every : ∀ g ∈ Helper.all, (Dialect.minijinja.filterOf? g.name).all fun s => IsIdentifier s := by decide +kernel
  have hfilter := every f f.mem_all
  rw [h] at hfilter
  exact of_decide_eq_true hfilter

theorem read_filtered (hx : LoopTemplate.IsVariable x) (hfilter : IsIdentifier filter) :
    read (Dialect.output (x ++ '|' :: filter)) = .ok [.output (.filter (.var 1 x) filter [] [])] := by
  have hnothing : Scans 1 [] [] := Scans.text (by decide) 1
  have hscan : Scans 1 (Dialect.output (x ++ '|' :: filter) ++ []) (Yields.outputLexemes 1 x filter ++ []) :=
    LoopTemplate.scans_output List.not_mem_nil hx.1 hfilter hnothing
  rw [List.append_nil] at hscan
  have htokens : tokens (Dialect.output (x ++ '|' :: filter)) = Yields.outputLexemes 1 x filter ++ [] := by
    rw [tokens, withoutLastBreak_output]
    exact hscan _ (by omega)
  have hname : NamesVariable x := LoopTemplate.namesVariable_of_ne hx.2
  have hend : Yields 14 nestingLimit false [] [] (.ok ([], [])) := (Yields.nil nestingLimit false []).mono (by decide)
  have hyields := hend.output (by decide) (by decide) hname filter 1
  rw [← htokens] at hyields
  rw [read_of_yields hyields (by omega)]
  rfl

/-- A call with a variable that is written as a filter is rendered by that filter. -/
theorem renderText_filtered (he : e.resolver.translator.dialect = .minijinja) (hx : LoopTemplate.IsVariable x)
    (hfilter : Dialect.minijinja.filterOf? f.name = some filter) (t : FileTree) (cache : Cache) (now : Instant)
    (context : Value) : (e.renderText t cache now (callTag f.name ('$' :: x)) context).1 =
      ((e.scope now anonymous context).output (.filter (.var 1 x) filter [] [])).mapError .render := by
  have hnot {c : Char} (hc : Text.isNameChar c = false) (hne : c ≠ '$') : c ∉ '$' :: x :=
    List.not_mem_cons_of_ne_of_not_mem hne (hx.1.not_mem hc)
  have hfiltered : IsFiltered e.resolver.translator.dialect f.name ('$' :: x) := by
    refine isFiltered_variable hx.1 ?_
    rw [he, hfilter]
    rfl
  obtain ⟨filter', hfilter', hemit⟩ := emitFunction_of_filtered (isIdentifier_name f) hfiltered
  rw [he, hfilter] at hfilter'
  obtain rfl := Option.some.inj hfilter'
  have htranslate := translate_callTag e.resolver.translator (isIdentifier_name f) (hnot rfl (by decide))
    ⟨hnot rfl (by decide), hnot rfl (by decide)⟩
  rw [hemit, Expression.translate_name hx.1, operand_name hx.1] at htranslate
  refine renderText_output ?_ t cache now context
  rw [htranslate]
  exact read_filtered hx (isIdentifier_filter hfilter)

end

/-! ## Calls of functions that are not enabled -/

section
variable {r : Resolver} {settings : EngineSettings} {e : Engine} {f : Helper} {args : Chars} {context : Value}

theorem namesVariable_name (f : Helper) : NamesVariable f.name := by
  have every : ∀ g ∈ Helper.all, g.name ≠ "not".toList ∧ (constantNamed? g.name).isNone = true := by decide +kernel
  exact ⟨(every f f.mem_all).1, Option.isNone_iff_eq_none.1 (every f f.mem_all).2⟩

/-- A tag with a call of a function that is not enabled is not rendered, however many arguments there are and whatever
they look like, unless the call is written as a filter. The filter is applied whether the function is enabled or
not. -/
theorem renderText_call_of_disabled (he : Engine.ofResolver r settings = .ok e) (hf : f ∉ e.functions)
    (hargs : Expression.ArgumentList args) (hquote : '\x22' ∉ args) (hbraces : Unbraced args)
    (hcontext : ∀ g, context.member f.name ≠ .callable g) (t : FileTree) (cache : Cache) (now : Instant) :
    (¬ IsFiltered .minijinja f.name args →
      ∃ cause, (e.renderText t cache now (callTag f.name args) context).1 = .error (.render cause)) ∧
    (IsFiltered .minijinja f.name args → ∃ filter, Dialect.minijinja.filterOf? f.name = some filter ∧
      e.resolver.translator.translate (callTag f.name args) =
        Dialect.output (operand (Expression.translate args) ++ '|' :: filter) ∧
      ∀ x, LoopTemplate.IsVariable x → args = '$' :: x →
        (e.renderText t cache now (callTag f.name args) context).1 =
          ((e.scope now anonymous context).output (.filter (.var 1 x) filter [] [])).mapError .render) := by
  obtain ⟨rfl, hdialect, -⟩ := eq_of_ofResolver he
  have hname := isIdentifier_name f
  have htranslate := translate_callTag e.resolver.translator hname hquote hbraces
  constructor
  · intro hfiltered
    rw [← hdialect] at hfiltered
    obtain ⟨behind, hshuts, hemit⟩ := exists_emitFunction_eq hname hargs hfiltered
    rw [hemit, hdialect] at htranslate
    have hread := read_call hname.1 (List.all_eq_true.2 hname.2) (namesVariable_name f) hshuts
    rw [← htranslate] at hread
    obtain ⟨kind, hkind⟩ | ⟨given, hgiven⟩ := hread
    · refine ⟨{ kind }, ?_⟩
      simp only [renderText, hkind]
    · have hframes : ∀ g, lookupIn [{ context }] f.name ≠ some (.callable g) := by
        intro g hg
        rw [lookupIn_context] at hg
        split at hg
        · cases hg
        · exact hcontext g (Option.some.inj hg)
      obtain ⟨cause, hcall⟩ := eval_call_of_disabled (s := e.scope now anonymous context) hf hframes 1 (gather 1 given)
      refine ⟨cause, ?_⟩
      rw [renderText_output hgiven, Scope.output, Expr.eval, hcall]
      rfl
  · intro hfiltered
    obtain ⟨filter, hfilter, hemit⟩ := emitFunction_of_filtered hname (hdialect.symm ▸ hfiltered)
    rw [hdialect] at hfilter
    refine ⟨filter, hfilter, htranslate.trans hemit, ?_⟩
    rintro x hx rfl
    exact renderText_filtered hdialect hx hfilter t cache now context

/-- With `strlen` alone enabled, a call of `substr` is refused, also with a literal that holds a parenthesis; but one
of `htmlspecialchars` with a variable is answered by a filter. -/
theorem renderText_call_of_disabled_htmlspecialchars :
    let r : Resolver := ⟨⟨[], "/view".toList⟩, ⟨.minijinja, "html".toList⟩⟩
    let settings : EngineSettings := { functions := ["strlen".toList] }
    let e : Engine := { resolver := r, functions := [.strlen], constants := [] }
    let context : Value := .ofNamed [("v".toList, .ofChars "a<b".toList)]
    let t := FileTree.empty []
    let args := "$v, strlen(')')".toList
    Engine.ofResolver r settings = .ok e ∧ Helper.substr ∉ e.functions ∧ Helper.htmlspecialchars ∉ e.functions ∧
      Expression.ArgumentList args ∧ '\x22' ∉ args ∧ Unbraced args ∧
      (∀ g, context.member Helper.substr.name ≠ .callable g) ∧
      (∀ g, context.member Helper.htmlspecialchars.name ≠ .callable g) ∧
      callTag Helper.substr.name args = "\x7bfunction=\x22substr($v, strlen(')'))\x22\x7d".toList ∧
      (∃ cause, (e.renderText t {} ⟨0, 0⟩ (callTag Helper.substr.name args) context).1 = .error (.render cause)) ∧
      callTag Helper.htmlspecialchars.name "$v".toList = "\x7bfunction=\x22htmlspecialchars($v)\x22\x7d".toList ∧
      (e.renderText t {} ⟨0, 0⟩ (callTag Helper.htmlspecialchars.name "$v".toList) context).1 =
        .ok "a&lt;b".toList := by
  intro r settings e context t args
  have he : Engine.ofResolver r settings = .ok e := rfl
  have hsubstr : Helper.substr ∉ e.functions := by decide
  have hescape : Helper.htmlspecialchars ∉ e.functions := by decide
  have hargs : Expression.ArgumentList args :=
    .lead (w := "$v, strlen".toList) rfl (.nested (.literal ⟨'\x27', [')'], rfl, rfl⟩ .nil) .nil)
  have hsubstr' (g : Chars) : context.member Helper.substr.name ≠ .callable g := fun h => nomatch h
  have hescape' (g : Chars) : context.member Helper.htmlspecialchars.name ≠ .callable g := fun h => nomatch h
  have hvariable : Expression.ArgumentList "$v".toList := .lead (w := "$v".toList) rfl .nil
  have hrefused := renderText_call_of_disabled he hsubstr hargs (by decide) (by decide) hsubstr' t {} ⟨0, 0⟩
  obtain ⟨filter, hfilter, -, hrender⟩ := (renderText_call_of_disabled he hescape hvariable (by decide) (by decide)
    hescape' t {} ⟨0, 0⟩).2 (isFiltered_variable (by decide) rfl)
  have hcall : ¬ IsFiltered .minijinja Helper.substr.name args := fun h => nomatch h.2.2.2
  obtain rfl : "escape".toList = filter := Option.some.inj hfilter
  have hanswer : (e.scope ⟨0, 0⟩ anonymous context).output (.filter (.var 1 ['v']) "escape".toList [] []) =
      .ok "a&lt;b".toList := by decide +kernel
  refine ⟨he, hsubstr, hescape, hargs, by decide, by decide, hsubstr', hescape', by decide +kernel, hrefused.1 hcall,
    by decide +kernel, ?_⟩
  rw [hrender ['v'] (by decide) rfl, hanswer]
  rfl

end

end Engine
end ViewBridge
