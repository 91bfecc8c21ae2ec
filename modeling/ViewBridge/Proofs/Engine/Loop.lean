import ViewBridge.Proofs.Engine.Basic
import ViewBridge.Proofs.Lookup.Priority
import ViewBridge.Proofs.Loop.Translation
import ViewBridge.Proofs.Loop.Rendering
/-!
# Rendering with loops

An engine prints a template of loops as it is meant: every name stands for what the innermost loop around it
makes of it. The only limit is that of nesting, which the engine has for all templates.

Results:
* `sees_context`: outside of all loops, names stand for the values of the context and for functions.
* `render_loops`: what an engine prints, of a text and of a template that it loads.
* `eval_tower`: loops that are nested in each other over one element print it, however many they are.
-/
namespace ViewBridge

namespace LoopTemplate

open Template (Frame Toolbox lookupIn)
open Translator (numbered)

/-! ## Outside of loops -/

theorem sees_context (tools : Toolbox) (context : Value) : Sees tools [{ context }] (outside tools context) := by
  intro name _
  rw [Template.lookupIn_context, outside]
  cases context.member name <;> rfl

/-! ## Deep loops -/

/-- Loops over the same rows, in each other, around the element. -/
def tower : Nat → LoopTemplate
  | 0 => output [] "value".toList (text [])
  | n + 1 => loop [] "rows".toList (tower n) (text [])

theorem wellFormed_tower (n : Nat) : (tower n).WellFormed := by
  have hempty : Translator.Unbraced [] := by decide
  induction n with
  | zero => decide
  | succ n ih => exact ⟨hempty, by decide, ih, hempty⟩

theorem nesting_tower (n : Nat) : (tower n).nesting = n := by
  induction n with
  | zero => rfl
  | succ n ih => rw [tower, nesting, nesting, ih, Nat.max_zero]

theorem withoutLastBreak_tower (n : Nat) : (tower n).withoutLastBreak = tower n := by
  cases n <;> rfl

theorem inRound_rows (depth : Nat) (key element : Value) (around : Chars → Value) :
    inRound depth key element around "rows".toList = around "rows".toList := by
  have hvalue : "rows".toList ≠ numbered "value" depth := (numbered_ne (by decide)).symm
  have hkey : "rows".toList ≠ numbered "key" depth := (numbered_ne (by decide)).symm
  rw [inRound, if_neg (not_or.2 ⟨by decide, hvalue⟩), if_neg (not_or.2 ⟨by decide, hkey⟩)]

/-- A loop over one element prints its body once. -/
theorem eval_loop_single {around : Chars → Value} {v : Value} (h : around "rows".toList = .seq [v])
    (body : LoopTemplate) (depth : Nat) : (loop [] "rows".toList body (text [])).eval depth around =
      body.eval (depth + 1) (inRound (depth + 1) (.ofNat 0) v around) := by
  have hrounds : rounds (.seq [v]) = some [(.ofNat 0, v)] := rfl
  rw [eval, h, hrounds]
  cases hbody : body.eval (depth + 1) (inRound (depth + 1) (.ofNat 0) v around) <;>
    simp [hbody, eval, List.mapM_cons]

/-- Over one element, they print that element, however many they are. -/
theorem eval_tower {n : Nat} (hn : 0 < n) {around : Chars → Value} {v : Value}
    (h : around "rows".toList = .seq [v]) (depth : Nat) : (tower n).eval depth around = some v.print := by
  induction n, hn using Nat.le_induction generalizing depth around with
  | base =>
    rw [tower, eval_loop_single h, tower, eval, inRound_value]
    simp [eval]
  | succ n hn ih =>
    rw [tower, eval_loop_single h]
    exact ih ((inRound_rows _ _ _ _).trans h) (depth + 1)

end LoopTemplate

/-! ## Engines -/

namespace Engine

open LoopTemplate (outside)

variable {e : Engine} {x : LoopTemplate}

/-- The statements of a template are rendered as what it prints. -/
theorem renderStmts_loops (e : Engine) (hx : x.WellFormed) (t : FileTree) (now : Instant) (m : EngineMemory)
    (name : Chars) (context : Value) :
    match x.eval 0 (outside (e.tools now) context) with
    | some out => (e.renderStmts t now m name (x.stmts 0 1) context).1 = .ok out
    | none => ∃ cause, (e.renderStmts t now m name (x.stmts 0 1) context).1 = .error (.render cause) := by
  let env : Template.Surroundings EngineMemory :=
    ⟨name, Template.Escaping.ofName name, e.tools now, (e.host t).insert (e.tools now) (Template.depthLimit / 10)⟩
  have hwrites : LoopTemplate.Writes env (x.stmts 0 1) ⟨[{ context }], m⟩
      (x.eval 0 (outside (e.tools now) context)) :=
    LoopTemplate.writes_stmts hx (LoopTemplate.sees_context (e.tools now) context) 0 1 m
  cases heval : x.eval 0 (outside (e.tools now) context) with
  | some out =>
    rw [heval] at hwrites
    simp only [renderStmts, Template.Host.render]
    rw [hwrites]
    rfl
  | none =>
    rw [heval] at hwrites
    obtain ⟨cause, r', hfail⟩ := hwrites
    refine ⟨cause, ?_⟩
    simp only [renderStmts, Template.Host.render]
    rw [hfail]
    rfl

/-- What is nested too deep is refused. -/
theorem renderText_refused (h : e.resolver.translator.dialect = .minijinja) (hx : x.WellFormed)
    (hdeep : ¬ x.nesting + 3 ≤ Template.nestingLimit) (t : FileTree) (cache : Cache) (now : Instant)
    (context : Value) :
    e.renderText t cache now x.source context = (.error (.render { kind := .syntaxError }), e, cache) := by
  have hread := LoopTemplate.read_target hx
  rw [← LoopTemplate.translate_loops h hx, if_neg hdeep] at hread
  simp only [renderText, hread]

/-- Names print what the innermost loop around them makes of them, in a text that is rendered and in a template
that is loaded to be rendered. -/
theorem render_loops (h : e.resolver.translator.dialect = .minijinja) (hx : x.WellFormed) (t : FileTree)
    (cache : Cache) (now : Instant) (context : Value) :
    x.Renders (outside (e.tools now) context) (e.renderText t cache now x.source context).1 ∧
    ∀ name cache', e.kept.lookup name = none →
      e.resolver.load t cache name = (.ok (some (e.resolver.translator.translate x.source)), cache') →
      x.Renders (outside (e.tools now) (contextOf name context)) (e.render t cache now name context).1 := by
  have hread := LoopTemplate.read_target hx
  rw [← LoopTemplate.translate_loops h hx] at hread
  have hx' := LoopTemplate.wellFormed_withoutLastBreak hx
  refine ⟨?_, fun name cache' hkept hload => ?_⟩
  · rw [LoopTemplate.Renders]
    split
    · rename_i hnesting
      rw [if_pos hnesting] at hread
      simp only [renderText, hread]
      exact renderStmts_loops e hx' t now ⟨e.kept, cache⟩ anonymous context
    · rename_i hdeep
      rw [renderText_refused h hx hdeep]
  · rw [LoopTemplate.Renders]
    split
    · rename_i hnesting
      rw [if_pos hnesting] at hread
      simp only [render, fetch, hkept, hload, hread]
      exact renderStmts_loops e hx' t now _ name (contextOf name context)
    · rename_i hdeep
      rw [if_neg hdeep] at hread
      simp only [render, fetch, hkept, hload, hread]

/-- Elements and keys of nested loops, behind an inner loop and in a further round, in a text and in a file. -/
theorem render_loops_rows :
    let r : Resolver := ⟨⟨[], "/view".toList⟩, ⟨.minijinja, "html".toList⟩⟩
    let e : Engine := { resolver := r, functions := [], constants := [] }
    let inner : LoopTemplate := .output [] "key".toList (.output [] "value".toList (.text []))
    let x : LoopTemplate := .loop [] "rows".toList
      (.output [] "key".toList (.loop ['('] "value".toList inner (.output [')'] "key".toList (.text [';']))))
      (.text [])
    let texts (all : List Chars) : Value := .seq (all.map .ofChars)
    let context : Value := .ofNamed [("rows".toList,
      .ofNamed [(['a'], texts [['x'], ['y']]), (['b'], texts [['z']])])]
    let t := (FileTree.empty []).addFile ["view".toList, "page.html".toList] ⟨some x.source, 0⟩
    let cache' := (r.load t {} "page".toList).2
    r.translator.dialect = .minijinja ∧ x.WellFormed ∧ e.kept.lookup "page".toList = none ∧
      r.load t {} "page".toList = (.ok (some (r.translator.translate x.source)), cache') ∧
      (e.renderText t {} ⟨0, 0⟩ x.source context).1 = .ok "a(0x1y)a;b(0z)b;".toList ∧
      (e.render t {} ⟨0, 0⟩ "page".toList context).1 = .ok "a(0x1y)a;b(0z)b;".toList := by
  intro r e inner x texts context t cache'
  have hx : x.WellFormed := by decide
  have hload : r.load t {} "page".toList = (.ok (some (r.translator.translate x.source)), cache') := by
    have hlocate : r.locate t "page".toList = .ok ("page.html".toList, "/view/page.html".toList) := by decide +kernel
    have hpage : t.file "/view/page.html".toList = .ok ⟨some x.source, 0⟩ := rfl
    obtain ⟨f, hf, hresult⟩ := Resolver.load_empty_of_locate hlocate
    obtain rfl := Except.ok.inj (hpage.symm.trans hf)
    have hlegacy : r.isLegacy "page.html".toList = true := by decide
    simp only [hlegacy, if_true] at hresult
    exact Prod.ext hresult rfl
  obtain ⟨htext, hfile⟩ := render_loops (e := e) rfl hx t {} ⟨0, 0⟩ context
  have hpage := hfile "page".toList cache' rfl hload
  have heval : x.withoutLastBreak.eval 0 (outside (e.tools ⟨0, 0⟩) context) =
      some "a(0x1y)a;b(0z)b;".toList := by decide +kernel
  have heval' : x.withoutLastBreak.eval 0 (outside (e.tools ⟨0, 0⟩) (contextOf "page".toList context)) =
      some "a(0x1y)a;b(0z)b;".toList := by decide +kernel
  have hnesting : x.nesting + 3 ≤ Template.nestingLimit := by decide
  rw [LoopTemplate.Renders, if_pos hnesting, heval] at htext
  rw [LoopTemplate.Renders, if_pos hnesting, heval'] at hpage
  exact ⟨rfl, hx, rfl, hload, htext, hpage⟩

/-- One loop more than the engine can nest is refused, whatever is in it. -/
theorem render_loops_ne_of_tower :
    let r : Resolver := ⟨⟨[], "/view".toList⟩, ⟨.minijinja, "html".toList⟩⟩
    let e : Engine := { resolver := r, functions := [], constants := [] }
    let x := LoopTemplate.tower 148
    let context : Value := .ofNamed [("rows".toList, .seq [.ofChars ['x']])]
    r.translator.dialect = .minijinja ∧ x.WellFormed ∧
      x.withoutLastBreak.eval 0 (outside (e.tools ⟨0, 0⟩) context) = some ['x'] ∧
      (e.renderText (FileTree.empty []) {} ⟨0, 0⟩ x.source context).1 =
        .error (.render { kind := .syntaxError }) := by
  intro r e x context
  have hx : x.WellFormed := LoopTemplate.wellFormed_tower 148
  have hrows : outside (e.tools ⟨0, 0⟩) context "rows".toList = .seq [.ofChars ['x']] := rfl
  have heval : x.withoutLastBreak.eval 0 (outside (e.tools ⟨0, 0⟩) context) = some ['x'] := by
    rw [LoopTemplate.withoutLastBreak_tower]
    exact LoopTemplate.eval_tower (by decide) hrows 0
  have hdeep : ¬ x.nesting + 3 ≤ Template.nestingLimit := by
    rw [LoopTemplate.nesting_tower]
    decide
  have hrender := renderText_refused (e := e) rfl hx hdeep (FileTree.empty []) {} ⟨0, 0⟩ context
  exact ⟨rfl, hx, heval, congrArg Prod.fst hrender⟩

end Engine
end ViewBridge
