import ViewBridge.Proofs.Engine.Interpolation
import ViewBridge.Proofs.Phrase.Joining
/-!
# Rendered compound assignments

A compound assignment becomes an assignment of the old value, the operator and the expression, pasted behind each
other. So the old value is joined to the first operand of the expression that binds tighter than the operator: to all
of the expression only if it is one operand.

Results:
* `translate_compound`: what a compound assignment and an output of the name become.
* `renderStmts_set`: what a set name prints.
* `renderText_compound`: what a compound assignment and an output of the name print.
-/
namespace ViewBridge

open Translator (IsIdentifier)

namespace Translator

variable {t : Translator} {body name value : Chars} {c : Char}

theorem isJoining_of_readAssignment {e : Chars} (h : Directive.readAssignment e = some ⟨name, some c, value⟩) :
    Directive.isJoining c = true := by
  rcases Option.or_eq_some_iff.1 h with h | ⟨-, h⟩
  · simp only [Directive.readCompound] at h
    rcases Option.or_eq_some_iff.1 h with h | ⟨-, h⟩
    · split at h
      · split_ifs at h with hop
        cases h
        exact hop.2
      · cases h
    · split at h
      · split_ifs at h
        cases h
        rfl
      · cases h
  · simp only [Directive.readSimple] at h
    split_ifs at h
    split at h
    · split_ifs at h
      cases h
    · cases h

/-- A compound assignment and an output of the name. -/
theorem translate_compound (ht : t.dialect = .minijinja) (hbody : (Item.var body).WellFormed)
    (ha : Directive.readAssignment (Expression.translate body) = some ⟨name, some c, value⟩) (hname : IsIdentifier name) :
    t.translate ((Item.var body).source ++ (Item.var ('$' :: name)).source) =
      Template.joinedText name c value := by
  have hitems : ∀ i ∈ [Item.var body, Item.var ('$' :: name)], i.WellFormed ∧ ∀ file, i ≠ .argument .inclusion file := by
    simp [hbody, wellFormed_var hname]
  have htranslate := t.translate_of_no_inclusion hitems
  have hemit : t.emitVariable body = Dialect.tag ("set ".toList ++ name ++ " = ".toList ++
      (name ++ [' ', (Joining.ofChar c).written, ' ']) ++ value) := by
    simp only [emitVariable, ha, Joining.written_eq (isJoining_of_readAssignment ha)]
  have hout : t.emitVariable ('$' :: name) = Dialect.output (name ++ '|' :: "safe".toList) := by
    rw [emitVariable_name t hname, ht]
    rfl
  simpa [translateItems, Item.output, hemit, hout, Template.joinedText] using htranslate

end Translator

namespace Engine

open Template Translator

/-- A name that is set to an expression prints what the expression comes to. -/
theorem renderStmts_set (e : Engine) (t : FileTree) (now : Instant) (m : EngineMemory) (name target : Chars) (x : Expr)
    (line : Nat) (context : Value) :
    (e.renderStmts t now m name [.assign (.name target) x, .output (Expr.var line target).marked] context).1 =
      ((x.eval (e.scope now name context)).map Value.print).mapError .render := by
  let env : Surroundings EngineMemory :=
    ⟨name, Escaping.ofName name, e.tools now, (e.host t).insert (e.tools now) (depthLimit / 10)⟩
  simp only [renderStmts, Host.render]
  cases heval : x.eval (e.scope now name context) with
  | error cause =>
    have hassign : ((Stmt.assign (.name target) x).exec env).run ⟨[{ context }], m⟩ =
        (.error cause, ⟨[{ context }], m⟩) := by
      rw [Stmt.exec, Run.run_bind_error (LoopTemplate.run_value_of_eval_error heval)]
    rw [Stmt.execAll, Run.run_bind_error hassign]
    rfl
  | ok v =>
    let frame : Frame := ({ context } : Frame).bind target v
    have hassign : ((Stmt.assign (.name target) x).exec env).run ⟨[{ context }], m⟩ =
        (.ok (.onward, []), ⟨[frame], m⟩) := by
      rw [Stmt.exec, Run.run_bind_ok (LoopTemplate.run_value_of_eval heval)]
      rfl
    have hvar : (Expr.var line target).eval ⟨[frame], e.tools now, name, Escaping.ofName name⟩ = .ok v := by
      simp only [Expr.eval, Scope.lookup?, lookupIn, List.findSome?_cons, frame, Frame.lookup_bind_self, Option.some_or,
        Option.getD_some]
    have houtput : ((Stmt.output (Expr.var line target).marked).exec env).run ⟨[frame], m⟩ =
        (.ok (.onward, v.print), ⟨[frame], m⟩) := by
      rw [Stmt.run_exec_output, Scope.output_marked hvar]
      rfl
    rw [Stmt.run_execAll_cons hassign, Stmt.run_execAll_cons houtput, Stmt.execAll]
    exact congrArg Except.ok (List.append_nil v.print)

variable {r : Resolver} {settings : EngineSettings} {e : Engine} {body name value : Chars} {c : Char} {x : Expr}

/-- A compound assignment pastes the old value and the operator in front of the expression. What the name is set to is
the expression with its first operand on the level of the operator joined to the old value: where that operand is all of
the expression, the old value joined to it, and otherwise something else is computed. -/
theorem renderText_compound (he : ofResolver r settings = .ok e) (hbody : (Item.var body).WellFormed)
    (ha : Directive.readAssignment (Expression.translate body) = some ⟨name, some c, value⟩)
    (hname : LoopTemplate.IsVariable name) (hself : name ≠ "self".toList)
    (hread : read (Dialect.tag ("set ".toList ++ name ++ " = ".toList ++ value)) = .ok [.assign (.name name) x]) :
    ∃ ls line, IsPhrase .statement value x ls line ∧ (Unnegated ls → ∃ (p : FirstPlace) (o : Expr), x = p.fill o ∧
      StartsIn (TagKind.levels .statement - 1) (Joining.ofChar c).level.tighter [⟨.stop .statement, line⟩] ls o ∧
      (IsOperand .statement ls line x → o = x) ∧
      read (r.translator.translate ((Item.var body).source ++ (Item.var ('$' :: name)).source)) =
        .ok [.assign (.name name) (p.fill (.binary (Joining.ofChar c).operator (.var 1 name) o)),
          .output (Expr.var line name).marked] ∧
      ∀ (t : FileTree) (cache : Cache) (now : Instant) (context : Value),
        let s := e.scope now anonymous context
        let rendered := (e.renderText t cache now ((Item.var body).source ++ (Item.var ('$' :: name)).source) context).1
        rendered = (((p.fill (.binary (Joining.ofChar c).operator (.var 1 name) o)).eval s).map Value.print).mapError
          .render ∧
        (o = x → rendered = (((Expr.binary (Joining.ofChar c).operator (.var 1 name) x).eval s).map
          Value.print).mapError .render)) := by
  obtain ⟨rfl, hdialect, -⟩ := eq_of_ofResolver he
  have hbind := LoopTemplate.not_reserved hname hself
  obtain ⟨ls, line, hphrase⟩ := exists_phrase_set hbind hname.1 hread
  refine ⟨ls, line, hphrase, fun hnot => ?_⟩
  obtain ⟨p, o, hx, hstarts, hoperand, hjoined⟩ :=
    hphrase.read_joined hname hself (isJoining_of_readAssignment ha) hnot
  rw [← translate_compound hdialect hbody ha hname.1] at hjoined
  refine ⟨p, o, hx, hstarts, hoperand, hjoined, ?_⟩
  intro t cache now context s rendered
  have hrendered : rendered = (((p.fill (.binary (Joining.ofChar c).operator (.var 1 name) o)).eval s).map
      Value.print).mapError .render := by
    simp only [rendered, renderText, hjoined]
    exact renderStmts_set e t now ⟨e.kept, cache⟩ anonymous name _ line context
  refine ⟨hrendered, fun ho => ?_⟩
  have hp : p = [] := FirstPlace.fill_eq_self_iff.1 (ho ▸ hx).symm
  rw [hrendered, hp, ho]
  rfl

/-- A product with a sum is the product with the first term of it, and the other one added. -/
theorem renderText_compound_sum :
    let r : Resolver := ⟨⟨[], "/view".toList⟩, ⟨.minijinja, "html".toList⟩⟩
    let e : Engine := { resolver := r, functions := [], constants := [] }
    let body := "$x *= $a + 1".toList
    let x : Expr := .binary .add (.var 1 ['a']) (.const 1 (.int 1))
    let context : Value := .ofNamed [(['x'], .int 2), (['a'], .int 3)]
    ofResolver r { functions := [] } = .ok e ∧ (Item.var body).WellFormed ∧
      Directive.readAssignment (Expression.translate body) = some ⟨['x'], some '*', "a + 1".toList⟩ ∧
      LoopTemplate.IsVariable ['x'] ∧ ['x'] ≠ "self".toList ∧
      read (Dialect.tag ("set ".toList ++ ['x'] ++ " = ".toList ++ "a + 1".toList)) = .ok [.assign (.name ['x']) x] ∧
      (Expr.binary .mul (.var 1 ['x']) x).eval (e.scope ⟨0, 0⟩ anonymous context) = .ok (.int 8) ∧
      (∀ ls line, IsPhrase .statement "a + 1".toList x ls line → Unnegated ls) ∧
      (e.renderText (FileTree.empty []) {} ⟨0, 0⟩ ((Item.var body).source ++ (Item.var "$x".toList).source) context).1 =
        .ok "7".toList := by
  intro r e body x context
  have he : ofResolver r { functions := [] } = .ok e := rfl
  have hbody : (Item.var body).WellFormed := by decide
  have ha : Directive.readAssignment (Expression.translate body) = some ⟨['x'], some '*', "a + 1".toList⟩ := by
    decide +kernel
  have hname : LoopTemplate.IsVariable ['x'] := by decide
  have hread : read (Dialect.tag ("set ".toList ++ ['x'] ++ " = ".toList ++ "a + 1".toList)) =
      .ok [.assign (.name ['x']) (.binary .add (.var 1 ['a']) (.const 1 (.int 1)))] :=
    read_of_readsAs (by decide +kernel)
  have hvalue : (Expr.binary .mul (.var 1 ['x']) x).eval (e.scope ⟨0, 0⟩ anonymous context) = .ok (.int 8) := rfl
  have hnot (ls : List Lexeme) (line : Nat) (h : IsPhrase .statement "a + 1".toList x ls line) : Unnegated ls := by
    intro t ht
    have hscan : scanTag 20 .statement 0 1 "a + 1 %\x7d".toList = ls ++ [⟨.stop .statement, line⟩] :=
      h.scansTag 20 (by decide)
    have hhead : (scanTag 20 .statement 0 1 "a + 1 %\x7d".toList).head?.any (fun t => t.token.isName "not") = false := by
      decide +kernel
    rw [hscan, List.head?_append, Option.mem_def.1 ht] at hhead
    exact hhead
  refine ⟨he, hbody, ha, hname, by decide, hread, hvalue, hnot, ?_⟩
  obtain ⟨ls, line, hphrase, hmore⟩ := renderText_compound he hbody ha hname (by decide) hread
  obtain ⟨p, o, -, -, -, hjoined, hrender⟩ := hmore (hnot ls line hphrase)
  have hpasted : read (r.translator.translate ((Item.var body).source ++ (Item.var "$x".toList).source)) =
      .ok [.assign (.name ['x']) (.binary .add (.binary .mul (.var 1 ['x']) (.var 1 ['a'])) (.const 1 (.int 1))),
        .output (.filter (.var 1 ['x']) "safe".toList [] [])] := by
    simp only [r, body, String.reduceToList]
    exact read_of_readsAs (by decide +kernel)
  obtain ⟨hassign, -⟩ := List.cons.inj (Except.ok.inj (hjoined.symm.trans hpasted))
  obtain ⟨-, hfill⟩ := Stmt.assign.inj hassign
  have hrendered := (hrender (FileTree.empty []) {} ⟨0, 0⟩ context).1
  rw [hfill] at hrendered
  exact hrendered

end Engine
end ViewBridge
