import Mathlib
import ViewBridge.Proofs.Call.Rendering
import ViewBridge.Proofs.Phrase.Reading
/-!
# Rendered interpolations

A variable tag that sets nothing prints an expression with the mark of raw output behind it. A filter binds tighter
than every operator, so the mark is on the last operand of the expression, and on all of it only if that is one
operand. What an operator makes of a marked operand is not marked: a text that is joined is escaped as if there were
no mark, and a number is a text for the operator.

Results:
* `translate_interpolation`: what such a tag becomes.
* `output_safe`, `output_concat_safe`: what an operand with the mark prints, alone and joined to something.
* `renderText_interpolation`: what such a tag prints.
-/
namespace ViewBridge

open Translator (IsIdentifier)

namespace Translator

variable {t : Translator} {body : Chars}

/-- The expression that a variable tag prints, in the target dialect. -/
def interpolated (t : Translator) (body : Chars) : Chars :=
  FilterName.translate t.dialect (Expression.translate body)

theorem interpolated_eq (t : Translator) (h : '|' ∉ Expression.translate body) :
    t.interpolated body = Expression.translate body := filterNames_eq_self t.dialect h

/-- A variable tag that sets nothing becomes an output tag, with the mark of raw output behind the expression. -/
theorem translate_interpolation (t : Translator) (h : (Item.var body).WellFormed)
    (hset : Directive.readAssignment (Expression.translate body) = none) :
    t.translate (Item.var body).source = t.dialect.rawOutput (t.interpolated body) := by
  have hitems : ∀ i ∈ [Item.var body], i.WellFormed ∧ ∀ file, i ≠ .argument .inclusion file := by
    simp [h]
  have htranslate := t.translate_of_no_inclusion hitems
  have hemit : t.emitVariable body = t.dialect.rawOutput (t.interpolated body) := by
    simp only [emitVariable, hset, interpolated]
  simpa [translateItems, Item.output, hemit] using htranslate

end Translator

/-! ## Operands with the mark -/

namespace Template

/-- An operand with the mark of raw output. -/
def Expr.marked (o : Expr) : Expr := .filter o "safe".toList [] []

/-- The operators that do not apply to a number and a text. -/
def isForNumbers : Operator → Bool
  | .add | .sub | .div | .wholeDiv | .rem | .pow => true
  | _ => false

theorem apply_int_text {op : Operator} (h : isForNumbers op = true) (n : Int) (safe : Bool) (w : Chars) :
    Value.apply op (.int n) (.text safe w) = .error Value.invalid := by
  cases op <;> first | rfl | cases h

namespace Scope

variable {s : Scope} {a o : Expr} {v w : Value}

theorem eval_marked (h : o.eval s = .ok w) : o.marked.eval s = .ok (.safeText w.print) := by
  rw [Expr.marked, Expr.eval_filter h, LoopTemplate.apply_safe]
  rfl

theorem output_of_eval {x : Expr} {out : Chars} (h : x.eval s = .ok v) (hout : s.escaping.write v = .ok out) :
    s.output x = .ok out := by
  simp only [output, h, bind, Except.bind, hout]
  rfl

/-- An operand with the mark is printed as it is. -/
theorem output_marked (h : o.eval s = .ok w) : s.output o.marked = .ok w.print :=
  output_of_eval (eval_marked h) (Escaping.write_safe _ _)

/-- The values of two operands under an operator, the second one with the mark. -/
theorem eval_binary_marked {op : Operator} {x : Value} (ha : a.eval s = .ok x) (ho : o.eval s = .ok w) :
    (Expr.binary op a o.marked).eval s =
      s.located o.marked.lastLine (Value.apply op x (.safeText w.print)) := by
  rw [Expr.eval, ha, eval_marked ho]
  rfl

/-- The operands of what has a value have values. -/
theorem exists_of_eval_binary {op : Operator} (h : (Expr.binary op a o).eval s = .ok v) : ∃ x w,
    a.eval s = .ok x ∧ o.eval s = .ok w ∧ s.located o.lastLine (Value.apply op x w) = .ok v := by
  rw [Expr.eval] at h
  cases ha : a.eval s with
  | error cause => rw [ha] at h; cases h
  | ok x =>
    cases ho : o.eval s with
    | error cause => rw [ha, ho] at h; cases h
    | ok w =>
      rw [ha, ho] at h
      exact ⟨x, w, rfl, rfl, h⟩

/-- What is joined is not marked, even if the last part of it is. -/
theorem output_concat_marked (hs : s.escaping = .markup) (h : (Expr.binary .concat a o).eval s = .ok v) :
    s.output (.binary .concat a o.marked) = .ok (Escaping.escapeMarkup v.print) := by
  obtain ⟨x, w, ha, ho, hv⟩ := exists_of_eval_binary h
  obtain rfl : Value.concat x w = v := Except.ok.inj hv
  refine output_of_eval (eval_binary_marked ha ho) ?_
  rw [hs]
  rfl

/-- A number has no sum with a marked operand, whatever that is. -/
theorem output_number_marked {op : Operator} (hop : isForNumbers op = true) {n : Int} (ha : a.eval s = .ok (.int n))
    (ho : o.eval s = .ok w) : ∃ cause, s.output (.binary op a o.marked) = .error cause := by
  have heval := @eval_binary_marked _ _ _ _ op _ ha ho
  rw [Value.safeText, apply_int_text hop] at heval
  rw [output, heval]
  exact ⟨_, rfl⟩

/-- A marked operand is a text, and a number of times a text is the text so many times. -/
theorem output_mul_marked (hs : s.escaping = .markup) {n : Nat} (hn : n < 2 ^ 64) (ha : a.eval s = .ok (.int n))
    (ho : o.eval s = .ok w) : s.output (.binary .mul a o.marked) =
      .ok (Escaping.escapeMarkup (List.replicate n w.print).flatten) := by
  have hcount : (Value.int n).count? = some n := by
    simp only [Value.count?, Value.bounded?]
    rw [if_pos ⟨Int.natCast_nonneg n, by simp; omega⟩]
    rfl
  refine output_of_eval (v := Value.ofChars (List.replicate n w.print).flatten) ?_ ?_
  · rw [eval_binary_marked ha ho]
    simp only [Value.apply, Value.mul, Value.safeText, hcount]
    rfl
  · rw [hs]
    rfl

/-- A mark on the second branch of a condition does nothing where the first one is taken. -/
theorem output_cond {test yes no no' : Expr} {c : Value} {out : Chars}
    (h : (Expr.cond test yes no).eval s = .ok v) (htest : test.eval s = .ok c) (hc : c.isTrue = true)
    (hout : s.escaping.write v = .ok out) : s.output (.cond test yes no') = .ok out := by
  rw [Expr.eval, htest] at h
  refine output_of_eval (v := v) ?_ hout
  rw [Expr.eval, htest]
  simp only [bind, Except.bind, hc, if_true] at h ⊢
  exact h

end Scope

end Template

/-! ## Rendered interpolations -/

namespace Engine

open Template Translator

variable {r : Resolver} {settings : EngineSettings} {e : Engine} {body : Chars} {x : Expr}

/-- A variable tag that sets nothing prints an expression with the mark of raw output on its last operand. So the
value comes out raw where the expression is one operand; where it is joined from several, all of it is escaped; and
where the last of several operands of a sum or a product is marked, it is not the value of the expression that comes
out. A condition prints its first branch as without the mark. -/
theorem renderText_interpolation (he : Engine.ofResolver r settings = .ok e) (hbody : (Item.var body).WellFormed)
    (hset : Directive.readAssignment (Expression.translate body) = none)
    (hread : read (Dialect.output (r.translator.interpolated body)) = .ok [.output x]) :
    ∃ ls line p o, IsPhrase .output (r.translator.interpolated body) x ls line ∧ x = LastPlace.fill p o ∧
      EndsIn [⟨.stop .output, line⟩] ls o ∧ (IsOperand .output ls line x → p = .here) ∧
      read (r.translator.translate (Item.var body).source) = .ok [.output (p.fill o.marked)] ∧
      ∀ (t : FileTree) (cache : Cache) (now : Instant) (context : Value),
        let s := e.scope now anonymous context
        let rendered := (e.renderText t cache now (Item.var body).source context).1
        rendered = (s.output (p.fill o.marked)).mapError .render ∧
        ∀ v, x.eval s = .ok v →
          (p = .here → rendered = .ok v.print) ∧
          (∀ a, p = .binary .concat a .here → rendered = .ok (Escaping.escapeMarkup v.print)) ∧
          (∀ op a n, p = .binary op a .here → isForNumbers op = true → a.eval s = .ok (.int n) →
            ∃ cause, rendered = .error (.render cause)) ∧
          (∀ a (n : Nat), p = .binary .mul a .here → a.eval s = .ok (.int n) → n < 2 ^ 64 → ∃ w, o.eval s = .ok w ∧
            rendered = .ok (Escaping.escapeMarkup (List.replicate n w.print).flatten)) ∧
          (∀ test yes q c out, p = .otherwise test yes q → test.eval s = .ok c → c.isTrue = true →
            Escaping.markup.write v = .ok out → rendered = .ok out) := by
  obtain ⟨rfl, hdialect, -⟩ := eq_of_ofResolver he
  obtain ⟨ls, line, hphrase⟩ := exists_phrase_output hread
  obtain ⟨p, o, hx, hends, hoperand, hfiltered⟩ := hphrase.read_filtered (show IsIdentifier "safe".toList by decide)
  have htag : read (e.resolver.translator.translate (Item.var body).source) = .ok [.output (p.fill o.marked)] := by
    rw [translate_interpolation _ hbody hset, Dialect.rawOutput, hdialect]
    exact hfiltered
  refine ⟨ls, line, p, o, hphrase, hx, hends, hoperand, htag, ?_⟩
  intro t cache now context s rendered
  have hrendered : rendered = (s.output (p.fill o.marked)).mapError .render :=
    renderText_output htag t cache now context
  refine ⟨hrendered, fun v hv => ?_⟩
  rw [hx] at hv
  refine ⟨?_, ?_, ?_, ?_, ?_⟩
  · rintro rfl
    simp only [LastPlace.fill] at hv hrendered
    rw [hrendered, Scope.output_marked hv]
    rfl
  · rintro a rfl
    simp only [LastPlace.fill] at hv hrendered
    rw [hrendered, Scope.output_concat_marked rfl hv]
    rfl
  · rintro op a n rfl hop ha
    simp only [LastPlace.fill] at hv hrendered
    obtain ⟨-, w, -, ho, -⟩ := Scope.exists_of_eval_binary hv
    obtain ⟨cause, hcause⟩ := Scope.output_number_marked hop ha ho
    rw [hrendered, hcause]
    exact ⟨cause, rfl⟩
  · rintro a n rfl ha hn
    simp only [LastPlace.fill] at hv hrendered
    obtain ⟨-, w, -, ho, -⟩ := Scope.exists_of_eval_binary hv
    refine ⟨w, ho, ?_⟩
    rw [hrendered, Scope.output_mul_marked rfl hn ha ho]
    rfl
  · rintro test yes q c out rfl htest hc hout
    simp only [LastPlace.fill] at hv hrendered
    rw [hrendered, Scope.output_cond hv htest hc hout]
    rfl

/-- Two operands that are joined come out escaped. -/
theorem renderText_interpolation_joined :
    let r : Resolver := ⟨⟨[], "/view".toList⟩, ⟨.minijinja, "html".toList⟩⟩
    let e : Engine := { resolver := r, functions := [], constants := [] }
    let body := "$a . $b".toList
    let x : Expr := .binary .concat (.var 1 ['a']) (.var 1 ['b'])
    let context : Value := .ofNamed [(['a'], .ofChars ['<']), (['b'], .ofChars ['>'])]
    ofResolver r { functions := [] } = .ok e ∧ (Item.var body).WellFormed ∧
      Expression.translate body = "a ~ b".toList ∧ Directive.readAssignment "a ~ b".toList = none ∧
      r.translator.interpolated body = "a ~ b".toList ∧ read (Dialect.output "a ~ b".toList) = .ok [.output x] ∧
      x.eval (e.scope ⟨0, 0⟩ anonymous context) = .ok (.ofChars "<>".toList) ∧
      (e.renderText (FileTree.empty []) {} ⟨0, 0⟩ (Item.var body).source context).1 = .ok "&lt;&gt;".toList := by
  intro r e body x context
  have he : ofResolver r { functions := [] } = .ok e := rfl
  have hbody : (Item.var body).WellFormed := by decide
  have htranslate : Expression.translate body = "a ~ b".toList := by decide +kernel
  have hset : Directive.readAssignment "a ~ b".toList = none := by decide
  have hprinted : r.translator.interpolated body = "a ~ b".toList :=
    (r.translator.interpolated_eq (by rw [htranslate]; decide)).trans htranslate
  have hread : read (Dialect.output "a ~ b".toList) =
      .ok [.output (.binary .concat (.var 1 ['a']) (.var 1 ['b']))] := read_of_readsAs (by decide +kernel)
  have hvalue : x.eval (e.scope ⟨0, 0⟩ anonymous context) = .ok (.ofChars "<>".toList) := rfl
  obtain ⟨ls, line, p, o, -, -, -, -, htag, hrender⟩ :=
    renderText_interpolation he hbody (htranslate ▸ hset) (hprinted ▸ hread)
  refine ⟨he, hbody, htranslate, hset, hprinted, hread, hvalue, ?_⟩
  obtain ⟨-, hclauses⟩ := hrender (FileTree.empty []) {} ⟨0, 0⟩ context
  have hpasted : read (r.translator.translate (Item.var body).source) =
      .ok [.output (.binary .concat (.var 1 ['a']) (.filter (.var 1 ['b']) "safe".toList [] []))] := by
    simp only [r, body, String.reduceToList]
    exact read_of_readsAs (by decide +kernel)
  obtain ⟨hfill, -⟩ := List.cons.inj (Except.ok.inj (htag.symm.trans hpasted))
  obtain ⟨hplace, -⟩ := LastPlace.eq_of_fill_filter (Stmt.output.inj hfill)
  exact (hclauses _ hvalue).2.1 _ hplace

end Engine

end ViewBridge
