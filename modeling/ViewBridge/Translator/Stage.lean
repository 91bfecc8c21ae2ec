import ViewBridge.Translator.Emit
import ViewBridge.Translator.Shelf
/-!
# Stages

A translator runs eight stages over the whole text, each on the result of the one before. Entities come
first, because every later reader expects real quotes; comments and verbatim blocks next, because their
bodies are off limits to the rest; includes, loops and conditions before variables, which would take a `$`
argument for themselves; constants last.

Results:
* `mem_pipeline`: every stage is in the pipeline.
-/
namespace ViewBridge

/-- The stages of a translator. -/
inductive Stage where
  | entities
  | comments
  | verbatim
  | includes
  | loops
  | conditionals
  | outputs
  | constants
deriving DecidableEq, Repr

namespace Stage

/-- The stages in the order they run. -/
def pipeline : List Stage :=
  [entities, comments, verbatim, includes, loops, conditionals, outputs, constants]

theorem mem_pipeline (s : Stage) : s ∈ pipeline := by cases s <;> decide

/-- The name of a stage. -/
def name : Stage → Chars
  | entities => "entities".toList
  | comments => "comments".toList
  | verbatim => "verbatim".toList
  | includes => "includes".toList
  | loops => "loops".toList
  | conditionals => "conditionals".toList
  | outputs => "variables".toList
  | constants => "constants".toList

/-- The stage with a name. -/
def ofName? (s : Chars) : Option Stage := pipeline.find? fun stage => stage.name == s

/-- The stages up to and including this one. -/
def upTo (last : Stage) : List Stage := pipeline.takeWhile (· != last) ++ [last]

end Stage

/-- What a translator carries from stage to stage: the shelf and the loop depth. -/
structure Progress where
  shelf : List Chars := []
  depth : Int := 0
deriving DecidableEq, Repr

namespace Translator

/-- The entities of an argument decoded, the ampersand last. -/
def decodeEntities (s : Chars) : Chars :=
  [("&quot;", "\x22"), ("&#039;", "'"), ("&#39;", "'"), ("&apos;", "'"), ("&lt;", "<"), ("&gt;", ">"),
    ("&amp;", "&")].foldl (fun s entity => Text.replace entity.1.toList entity.2.toList s) s

/-- A tag with entity quotes becomes one with real quotes and a decoded argument. -/
def readEntities (s : Chars) : Option (Chars × Chars) :=
  (Directive.readEntityTag s).map fun ((name, body), rest) =>
    ('\x7b' :: name ++ "=\x22".toList ++ decodeEntities body ++ "\x22\x7d".toList, rest)

/-- A block whose text, once made, goes to the shelf. -/
def shelve (read : Chars → Option (Chars × Chars)) (make : Chars → Chars) (shelf : List Chars)
    (s : Chars) : Option (Chars × List Chars × Chars) :=
  (read s).map fun (body, rest) =>
    let (mark, shelf) := Shelf.put shelf (make body)
    (mark, shelf, rest)

/-- The readers of blocks, in the order their passes run: comments, ignored text, verbatim text. -/
def readComment : Chars → Option (Chars × Chars) :=
  Directive.readBlock "\x7b*".toList "*\x7d".toList

/-- An ignored block. -/
def readIgnore : Chars → Option (Chars × Chars) :=
  Directive.readBlock "\x7bignore\x7d".toList "\x7b/ignore\x7d".toList

/-- A verbatim block. -/
def readNoparse : Chars → Option (Chars × Chars) :=
  Directive.readBlock "\x7bnoparse\x7d".toList "\x7b/noparse\x7d".toList

/-- A loop tag, with the depth around it. -/
def stepLoop (t : Translator) (depth : Int) (s : Chars) : Option (Chars × Int × Chars) :=
  (Directive.readLoop s).map fun (mark, rest) =>
    match mark with
    | .closing => (Dialect.tag "endfor".toList, depth - 1, rest)
    | .opening header => (t.emitLoop (depth + 1) header, depth + 1, rest)

/-- What a reader finds, made into target text. -/
def emitting (read : Chars → Option (Chars × Chars)) (make : Chars → Chars) (s : Chars) :
    Option (Chars × Chars) :=
  (read s).map fun (body, rest) => (make body, rest)

/-- A fixed tag becomes a statement. -/
def fixedTag (legacy statement : String) : Chars → Chars :=
  Text.replace ('\x7b' :: legacy.toList ++ ['\x7d']) (Dialect.tag statement.toList)

/-- One stage, on the text that the stage before left. -/
def runStage (t : Translator) (stage : Stage) (p : Progress) (s : Chars) : Chars × Progress :=
  match stage with
  | .entities => (Text.substitute readEntities s, p)
  | .comments =>
    let (s, shelf) := Text.substituteFrom (shelve readComment Dialect.comment) p.shelf s
    let (s, shelf) := Text.substituteFrom (shelve readIgnore Dialect.comment) shelf s
    (s, { p with shelf })
  | .verbatim =>
    let (s, shelf) := Text.substituteFrom (shelve readNoparse t.dialect.verbatim) p.shelf s
    (s, { p with shelf })
  | .includes => (Text.substitute (emitting Directive.readInclude t.emitInclude) s, p)
  | .loops =>
    let (s, depth) := Text.substituteFrom t.stepLoop p.depth s
    (fixedTag "continue" "continue" (fixedTag "break" "break" s), { p with depth })
  | .conditionals =>
    let s := Text.substitute (emitting Directive.readIf emitIf) s
    let s := Text.substitute (emitting Directive.readElseif t.emitElseif) s
    (fixedTag "/if" "endif" (fixedTag "else" "else" s), p)
  | .outputs =>
    let s := Text.substitute (emitting Directive.readVariable t.emitVariable) s
    (Text.substitute (emitting Directive.readFunction t.emitFunction) s, p)
  | .constants => (Text.substitute (emitting Directive.readConstant emitConstant) s, p)

/-- Several stages, one after the other. -/
def runStages (t : Translator) : List Stage → Progress → Chars → Chars × Progress
  | [], p, s => (s, p)
  | stage :: stages, p, s =>
    let (s, p) := t.runStage stage p s
    runStages t stages p s

end Translator
end ViewBridge
