import ViewBridge.Engine
import ViewBridge.Proofs.Template.Run
import ViewBridge.Proofs.Template.Reading
/-!
# Engines

What every engine is, and how it renders a template that is nothing but text.

Results:
* `lookupIn_context`: outside of all loops, a name stands for what it is in the context.
* `eq_of_ofResolver`: an engine speaks the dialect its resolver translates to, and keeps nothing at first.
* `renderText_of_data`: a template of text is rendered as that text.
-/
namespace ViewBridge

/-! ## Names -/

namespace Template

/-- Outside of all loops, a name stands for what it is in the context. -/
theorem lookupIn_context (context : Value) (name : Chars) :
    lookupIn [{ context }] name = match context.member name with
      | .undefined => none
      | v => some v := by
  have hframe : lookupIn [{ context }] name = ({ context } : Frame).lookup name := by
    rw [lookupIn, List.findSome?_cons]
    cases ({ context } : Frame).lookup name <;> rfl
  have hlocals : ({ context } : Frame).locals.lookup name = none := rfl
  rw [hframe]
  cases hmember : context.member name <;> simp only [Frame.lookup, hlocals, hmember]

end Template

/-! ## Engines -/

namespace Engine

open Template (Stmt)

theorem eq_of_ofResolver {r : Resolver} {settings : EngineSettings} {e : Engine}
    (h : ofResolver r settings = .ok e) :
    e.resolver = r ∧ r.translator.dialect = .minijinja ∧ e.kept = [] := by
  unfold ofResolver at h
  split at h
  · cases h
  · rename_i hdialect
    cases hf : Config.helpers settings.functions with
    | error cause => simp [hf, Except.map] at h
    | ok functions =>
      simp only [hf, Except.map, Except.ok.injEq] at h
      rw [← h]
      exact ⟨rfl, by simpa using hdialect, rfl⟩

/-- A template whose translation is nothing but text is rendered as that text, and nothing is remembered. -/
theorem renderText_of_data (e : Engine) {source : Chars} {pieces : List (Chars × Nat)}
    (h : Template.tokens (e.resolver.translator.translate source) =
      pieces.map fun p => ⟨.data p.1, p.2⟩) (t : FileTree) (cache : Cache) (now : Instant) (context : Value) :
    e.renderText t cache now source context = (.ok (pieces.map Prod.fst).flatten, e, cache) := by
  have hread := Template.read_of_data h
  have htexts : (pieces.map fun p => Stmt.data p.1) = (pieces.map Prod.fst).map Stmt.data := by
    rw [List.map_map]
    rfl
  rw [htexts] at hread
  simp only [renderText, hread, renderStmts, Template.Host.render, Stmt.run_execAll_texts]
  rfl

end Engine
end ViewBridge
