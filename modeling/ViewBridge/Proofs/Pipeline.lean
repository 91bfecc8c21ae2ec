import ViewBridge.Proofs.Tag
import ViewBridge.Translator
/-!
# The pipeline as a list of passes

A stage is one pass over the text or several. Each of them reads tags of one kind, writes something for each
tag and carries the progress on; what can be said of all stages is said of such a pass once.

Results:
* `runStage_eq`, `runStages_eq`: what the stages do is what their passes do, one after the other.
-/
namespace ViewBridge.Text

/-- A pass with a richer state that does as a pass with a poorer one. -/
theorem substituteFrom_embed {σ τ : Type} {find : σ → Chars → Option (Chars × σ × Chars)}
    {find' : τ → Chars → Option (Chars × τ × Chars)} (f : σ → τ)
    (h : ∀ st s, find' (f st) s = (find st s).map fun (out, st', rest) => (out, f st', rest))
    (st : σ) (s : Chars) :
    substituteFrom find' (f st) s = ((substituteFrom find st s).1, f (substituteFrom find st s).2) := by
  induction hn : s.length using Nat.strongRecOn generalizing s st with
  | ind n ih =>
    cases s with
    | nil => simp
    | cons c cs =>
      simp only [List.length_cons] at hn
      have hcopy := ih cs.length (by omega) st cs rfl
      rw [substituteFrom, substituteFrom, h]
      cases find st (c :: cs) with
      | none => simp [hcopy]
      | some r =>
        obtain ⟨out, st', rest⟩ := r
        simp only [Option.map_some]
        split
        · simp [ih rest.length (by omega) st' rest rfl]
        · simp [hcopy]

end ViewBridge.Text

namespace ViewBridge.Translator

variable {α : Type}

theorem tag_readComment : Directive.Tag readComment := Directive.tag_readBlock rfl rfl

theorem tag_readIgnore : Directive.Tag readIgnore := Directive.tag_readBlock rfl rfl

theorem tag_readNoparse : Directive.Tag readNoparse := Directive.tag_readBlock rfl rfl

/-- A pass over the text: the tags it reads, and what it writes for one and carries on. -/
structure Pass where
  Body : Type
  read : Chars → Option (Body × Chars)
  tag : Directive.Tag read
  write : Progress → Body → Chars × Progress

namespace Pass

/-- What a pass makes of the tag at the start of a text. -/
def find (x : Pass) (p : Progress) (s : Chars) : Option (Chars × Progress × Chars) :=
  (x.read s).map fun (body, rest) => ((x.write p body).1, (x.write p body).2, rest)

/-- A pass over a text. -/
def run (x : Pass) (p : Progress) (s : Chars) : Chars × Progress := Text.substituteFrom x.find p s

theorem find_eq_some {x : Pass} {p p' : Progress} {v out rest : Chars} (h : x.find p v = some (out, p', rest)) :
    ∃ a, x.read v = some (a, rest) ∧ out = (x.write p a).1 ∧ p' = (x.write p a).2 := by
  obtain ⟨r, hr, he⟩ := Option.map_eq_some_iff.1 h
  simp only [Prod.mk.injEq] at he
  exact ⟨r.1, by rw [hr, ← he.2.2], he.1.symm, he.2.1.symm⟩

theorem find_suffix (x : Pass) {p p' : Progress} {v out rest : Chars}
    (h : x.find p v = some (out, p', rest)) : rest <:+ v := by
  obtain ⟨a, hr, -, -⟩ := find_eq_some h
  obtain ⟨used, hv⟩ := x.tag.ends hr
  exact ⟨used ++ ['\x7d'], by rw [hv]; simp⟩

@[simp] theorem run_nil (x : Pass) (p : Progress) : x.run p [] = ([], p) := Text.substituteFrom_nil _ _

/-- A stretch in which nothing is read is copied. -/
theorem run_append_of_none (x : Pass) (p : Progress) {s t : Chars}
    (h : ∀ v, v ≠ [] → v <:+ s → x.read (v ++ t) = none) :
    x.run p (s ++ t) = (s ++ (x.run p t).1, (x.run p t).2) :=
  Text.substituteFrom_append_of_none fun v hv hs => by rw [find, h v hv hs, Option.map_none]

theorem run_of_none (x : Pass) (p : Progress) {s : Chars} (h : ∀ v, v <:+ s → x.read v = none) :
    x.run p s = (s, p) := by
  have hcopy := x.run_append_of_none p (s := s) (t := []) fun v _ hs => by rw [List.append_nil, h v hs]
  rwa [List.append_nil, run_nil, List.append_nil] at hcopy

/-- A pass rests at a seam that it does not read over. -/
theorem run_append (x : Pass) (p : Progress) {s t : Chars}
    (h : ∀ v, v ≠ [] → v <:+ s → x.read (v ++ t) = (x.read v).map fun (a, rest) => (a, rest ++ t)) :
    x.run p (s ++ t) =
      ((x.run p s).1 ++ (x.run (x.run p s).2 t).1, (x.run (x.run p s).2 t).2) :=
  Text.substituteFrom_append x.find_suffix (fun p v hv hs => by
    simp only [find, h v hv hs, Option.map_map]
    rfl) p

/-- Several passes, each over what the one before left. -/
def runAll : List Pass → Progress → Chars → Chars × Progress
  | [], p, s => (s, p)
  | x :: xs, p, s => runAll xs (x.run p s).2 (x.run p s).1

theorem runAll_append (xs ys : List Pass) (p : Progress) (s : Chars) :
    runAll (xs ++ ys) p s = runAll ys (runAll xs p s).2 (runAll xs p s).1 := by
  induction xs generalizing p s with
  | nil => rfl
  | cons x xs ih => exact ih _ _

/-- A pass that writes the same for a tag wherever it stands. -/
def plain {read : Chars → Option (α × Chars)} (tag : Directive.Tag read) (make : α → Chars) : Pass :=
  ⟨α, read, tag, fun p a => (make a, p)⟩

/-- A pass that puts what it makes of a block on the shelf and writes a placeholder. -/
def shelving {read : Chars → Option (Chars × Chars)} (tag : Directive.Tag read)
    (make : Chars → Chars) : Pass :=
  ⟨Chars, read, tag, fun p body =>
    ((Shelf.put p.shelf (make body)).1, { p with shelf := (Shelf.put p.shelf (make body)).2 })⟩

/-- A pass that makes a statement of a fixed tag. -/
def fixed (legacy statement : String) : Pass :=
  have tag : Directive.Tag fun s =>
      (Text.after? ('\x7b' :: legacy.toList ++ ['\x7d']) s).map fun rest => ((), rest) :=
    Directive.tag_lead () rfl (List.getLast?_concat ..)
  plain tag fun _ => Dialect.tag statement.toList

/-- The pass over the loop tags, which counts how deep they are. -/
def loops (t : Translator) : Pass :=
  ⟨Directive.LoopMark, Directive.readLoop, Directive.tag_readLoop, fun p mark =>
    match mark with
    | .closing => (Dialect.tag "endfor".toList, { p with depth := p.depth - 1 })
    | .opening header => (t.emitLoop (p.depth + 1) header, { p with depth := p.depth + 1 })⟩

theorem run_plain {read : Chars → Option (α × Chars)} (tag : Directive.Tag read) (make : α → Chars)
    (p : Progress) (s : Chars) :
    (plain tag make).run p s =
      (Text.substitute (fun s => (read s).map fun (a, rest) => (make a, rest)) s, p) := by
  rw [Text.substitute_eq_substituteFrom]
  refine Text.substituteFrom_embed (fun _ => p) (fun _ s => ?_) () s
  simp only [find, plain, Text.stateless, Option.map_map]
  rfl

theorem run_shelving {read : Chars → Option (Chars × Chars)} (tag : Directive.Tag read)
    (make : Chars → Chars) (p : Progress) (s : Chars) :
    (shelving tag make).run p s =
      ((Text.substituteFrom (shelve read make) p.shelf s).1,
        { p with shelf := (Text.substituteFrom (shelve read make) p.shelf s).2 }) := by
  refine Text.substituteFrom_embed (fun shelf => { p with shelf }) (fun shelf s => ?_) p.shelf s
  simp only [find, shelving, shelve, Option.map_map]
  rfl

theorem run_fixed (legacy statement : String) (p : Progress) (s : Chars) :
    (fixed legacy statement).run p s = (fixedTag legacy statement s, p) := by
  rw [fixed, run_plain, fixedTag, Text.replace_eq_substitute _ (by simp)]
  congr 2
  funext s
  simp only [Text.exchange, Option.map_map]
  rfl

theorem run_loops (t : Translator) (p : Progress) (s : Chars) :
    (loops t).run p s =
      ((Text.substituteFrom t.stepLoop p.depth s).1,
        { p with depth := (Text.substituteFrom t.stepLoop p.depth s).2 }) := by
  refine Text.substituteFrom_embed (fun depth => { p with depth }) (fun depth s => ?_) p.depth s
  simp only [find, loops, stepLoop, Option.map_map]
  congr 1
  funext r
  obtain ⟨mark, rest⟩ := r
  cases mark <;> rfl

end Pass

open Directive Pass in
/-- The passes of a stage. -/
def passes (t : Translator) : Stage → List Pass
  | .entities => [plain tag_readEntityTag fun (name, body) =>
      '\x7b' :: name ++ "=\x22".toList ++ decodeEntities body ++ "\x22\x7d".toList]
  | .comments => [shelving tag_readComment Dialect.comment, shelving tag_readIgnore Dialect.comment]
  | .verbatim => [shelving tag_readNoparse t.dialect.verbatim]
  | .includes => [plain tag_readInclude t.emitInclude]
  | .loops => [Pass.loops t, fixed "break" "break", fixed "continue" "continue"]
  | .conditionals =>
    [plain tag_readIf emitIf, plain tag_readElseif t.emitElseif, fixed "else" "else", fixed "/if" "endif"]
  | .outputs => [plain tag_readVariable t.emitVariable, plain tag_readFunction t.emitFunction]
  | .constants => [plain tag_readConstant emitConstant]

theorem runStage_eq (t : Translator) (stage : Stage) (p : Progress) (s : Chars) :
    t.runStage stage p s = Pass.runAll (t.passes stage) p s := by
  cases stage <;>
    simp only [runStage, passes, Pass.runAll, Pass.run_plain, Pass.run_shelving, Pass.run_fixed,
      Pass.run_loops] <;> rfl

theorem runStages_eq (t : Translator) (stages : List Stage) (p : Progress) (s : Chars) :
    t.runStages stages p s = Pass.runAll (stages.flatMap t.passes) p s := by
  induction stages generalizing p s with
  | nil => rfl
  | cons stage stages ih =>
    rw [List.flatMap_cons, Pass.runAll_append, ← runStage_eq, ← ih]
    rfl

end ViewBridge.Translator
