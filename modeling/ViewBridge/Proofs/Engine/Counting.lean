import ViewBridge.Proofs.Counting.Rendering
import ViewBridge.Proofs.Engine.Loop
/-!
# Rendering with counting loops

A counting loop is translated to a loop over a range. An engine goes through its rounds if `range` can count through
them: the bounds must not be negative and not be too large, even if there are no rounds. Where a range includes its
end, it counts down if there are no rounds.

Results:
* `translate_loopSource`: what a counting loop and its body become.
* `renderText_counting`: what a header becomes, what its range goes through, and what an engine prints.
-/
namespace ViewBridge

open Template
open Translator (Item translateItems Unbraced)

namespace CountingHeader

variable {h : CountingHeader} {body : LoopTemplate}

/-- A counting loop as it is written: a loop tag with the header, the body, and the end of the loop. -/
def loopSource (h : CountingHeader) (body : LoopTemplate) : Chars :=
  (Item.loop h.source .numbered).source ++ (body.source ++ Item.endLoop.source)

/-- A counting loop as items. -/
def items (h : CountingHeader) (body : LoopTemplate) : List Item :=
  .loop h.source .numbered :: (body.items ++ [.endLoop])

theorem source_items (h : CountingHeader) (body : LoopTemplate) :
    (h.items body).flatMap Item.source = h.loopSource body := by
  rw [items, List.flatMap_cons, List.flatMap_append, LoopTemplate.source_items, List.flatMap_singleton]
  rfl

/-- What is no character of names, blanks or arithmetic does not stand in a header. -/
theorem not_mem_source {c : Char} (hc : Text.isNameChar c = false ∧ c ∉ ['$', '-', '>', '.'] ∧ isBetween c = false)
    (hblank : Text.isBlank c = false) (hmark : c ∉ ['$', '=', ';', '<', '+']) : c ∉ h.source := by
  have hname : c ∉ h.var.1 := h.var.2.1.1.not_mem hc.1
  have hlast : c ∉ h.last.source := h.last.not_mem_written Leaf.chars_source hc
  have hfirst : c ∉ h.first.1 := fun hmem => by
    have hdigit := isBetween_of_isDigit (h.first.2.2 c hmem)
    rw [hc.2.2] at hdigit
    cases hdigit
  have hgap (i : Fin 8) : c ∉ (h.gaps i).1 := fun hmem => by
    rw [(h.gaps i).2 c hmem] at hblank
    cases hblank
  simp only [List.mem_cons, List.not_mem_nil, or_false, not_or] at hmark
  obtain ⟨hdollar, hequal, hsemicolon, hless, hplus⟩ := hmark
  have hif : c ∉ (if h.inclusive then ['='] else []) := by
    split <;> simp [hequal]
  simp only [source, List.mem_cons, List.mem_append, hname, hlast, hfirst, hgap, hif, hdollar, hequal, hsemicolon,
    hless, hplus, List.not_mem_nil, or_self, not_false_iff]

theorem wellFormed_loop (h : CountingHeader) : (Item.loop h.source .numbered).WellFormed :=
  ⟨not_mem_source (by decide) rfl (by decide),
    ⟨not_mem_source (by decide) rfl (by decide), not_mem_source (by decide) rfl (by decide)⟩,
    fun _ hm => absurd hm List.not_mem_nil⟩

/-- A counting loop is translated with its body. -/
theorem translate_loopSource {t : Translator} (ht : t.dialect = .minijinja) (hbody : body.WellFormed) :
    t.translate (h.loopSource body) = h.loopTarget .minijinja body := by
  have hitems : ∀ i ∈ h.items body, i.WellFormed ∧ ∀ file, i ≠ .argument .inclusion file :=
    List.forall_mem_cons.2 ⟨⟨h.wellFormed_loop, by simp⟩, List.forall_mem_append.2
      ⟨LoopTemplate.wellFormed_items hbody, List.forall_mem_singleton.2 ⟨trivial, by simp⟩⟩⟩
  have hinner : translateItems t 1 _ = _ := LoopTemplate.translateItems_items ht hbody 1 [.endLoop]
  have hend : translateItems t (1 : Nat) [.endLoop] = Dialect.tag "endfor".toList := by
    simp [translateItems, Item.output]
  have hopen : (Item.loop h.source .numbered).output t (0 + 1) = h.target .minijinja := by
    rw [← ht]
    exact h.emitLoop_source t 1 none none
  rw [← source_items, Translator.translate_of_no_inclusion t hitems, items, translateItems, Item.turn, hopen]
  show h.target .minijinja ++ translateItems t 1 _ = _
  rw [hinner, hend, loopTarget]

/-- The rest of what the engine reads of a counting loop: a body of variables and loops, and neither that nor the end of
the range nested too deep. -/
structure Readable (h : CountingHeader) (d : Dialect) (body : LoopTemplate) : Prop where
  wellFormed : body.WellFormed
  nesting : body.nesting + 4 ≤ nestingLimit
  levels : (h.rangeEnd d).levels + 2 ≤ nestingLimit
  first : h.first.value < Nat.pow 2 128

end CountingHeader

namespace Engine

open CountingHeader (counted)
open LoopTemplate (outside)

variable {e : Engine} {h : CountingHeader} {body : LoopTemplate}

/-- The statement of a counting loop is rendered as its rounds. -/
theorem renderStmts_counting (e : Engine) (hbody : body.WellFormed) (t : FileTree) (now : Instant) (m : EngineMemory)
    (name : Chars) {context : Value} {ints : Leaf → Int} (hholds : h.Holds (outside (e.tools now) context) ints) :
    let rendered := (e.renderStmts t now m name [h.stmt .minijinja body] context).1
    if h.Countable ints then
      match (h.rounds ints).mapM fun i => body.eval 1 (counted h.var.1 i (outside (e.tools now) context)) with
      | some texts => rendered = .ok texts.flatten
      | none => ∃ cause, rendered = .error (.render cause)
    else ∃ cause, rendered = .error (.render cause) ∧ cause.kind = .invalidOperation := by
  intro rendered
  let env : Surroundings EngineMemory :=
    ⟨name, Escaping.ofName name, e.tools now, (e.host t).insert (e.tools now) (depthLimit / 10)⟩
  have hsees : LoopTemplate.Sees env.tools [{ context }] (outside (e.tools now) context) :=
    LoopTemplate.sees_context (e.tools now) context
  have hexec := CountingHeader.exec_stmt hsees hholds hbody m
  have hfails {cause : RenderError} {r : Running EngineMemory}
      (hrun : ((h.stmt .minijinja body).exec env).run ⟨[{ context }], m⟩ = (.error cause, r)) :
      rendered = .error (.render cause) := by
    simp only [rendered, renderStmts, Host.render]
    rw [Stmt.execAll, Run.run_bind_error hrun]
    rfl
  split
  · rename_i hcountable
    rw [if_pos hcountable] at hexec
    split
    · rename_i texts htexts
      simp only [htexts] at hexec
      simp only [rendered, renderStmts, Host.render]
      rw [Stmt.run_execAll_cons hexec, Stmt.execAll]
      simp [Except.map]
    · rename_i hnone
      simp only [hnone] at hexec
      obtain ⟨cause, r', hrun⟩ := hexec
      exact ⟨cause, hfails hrun⟩
  · rename_i hcountable
    rw [if_neg hcountable] at hexec
    obtain ⟨cause, r', hrun, hkind⟩ := hexec
    exact ⟨cause, hfails hrun, hkind⟩

end Engine
end ViewBridge
