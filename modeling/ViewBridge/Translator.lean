import ViewBridge.Translator.Stage
/-!
# Translating templates

A legacy template becomes a template of the target dialect. Text that no directive claims is copied;
a translator never fails, and a malformed directive is left for the target engine to complain about.

Results:
* `translate_eq`: a template goes through the whole pipeline.
-/
namespace ViewBridge.Translator

/-- The text as it stands after the stage `last`. -/
def translateThrough (t : Translator) (last : Stage) (source : Chars) : Chars :=
  let (s, p) := t.runStages last.upTo {} (Shelf.escape source)
  Shelf.restore p.shelf s

/-- A template in the target dialect. -/
def translate (t : Translator) (source : Chars) : Chars := t.translateThrough .constants source

theorem translate_eq (t : Translator) (source : Chars) :
    t.translate source =
      Shelf.restore (t.runStages Stage.pipeline {} (Shelf.escape source)).2.shelf
        (t.runStages Stage.pipeline {} (Shelf.escape source)).1 := rfl

end ViewBridge.Translator
