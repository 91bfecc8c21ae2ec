import ViewBridge.Proofs.Pipeline
import ViewBridge.Proofs.Shelf
/-!
# The frame of a translation

Text in front of the first opening brace and behind the last closing one is no concern of a translator,
whatever stands between them. Every pass leaves such text alone because its tags stand between braces, and
emptying the shelf leaves it alone because nothing that is written stops in the middle of a placeholder.

Results:
* `Pass.run_append_left`, `Pass.run_append_right`: one pass.
* `Pass.Settling.runAll`: what the passes write never stops inside a placeholder.
* `translateThrough_frame`: the whole translator, up to any stage.
-/
namespace ViewBridge.Translator

namespace Pass

/-! ## One pass -/

theorem run_append_left (x : Pass) (p : Progress) {u : Chars} (hu : '\x7b' ∉ u) (s : Chars) :
    x.run p (u ++ s) = (u ++ (x.run p s).1, (x.run p s).2) := by
  refine x.run_append_of_none p fun v hv hs => ?_
  obtain ⟨c, cs, rfl⟩ := List.exists_cons_of_ne_nil hv
  exact x.tag.none_of_head (fun h => hu (hs.mem (h ▸ List.mem_cons_self))) _

theorem runAll_nil (xs : List Pass) (p : Progress) : runAll xs p [] = ([], p) := by
  induction xs with
  | nil => rfl
  | cons x xs ih => rw [runAll, run_nil]; exact ih

theorem run_append_right (x : Pass) (p : Progress) {u : Chars} (hu : '\x7d' ∉ u) (s : Chars) :
    x.run p (s ++ u) = ((x.run p s).1 ++ u, (x.run p s).2) := by
  have hcopy := x.run_of_none (x.run p s).2 fun v hv => x.tag.none_of_not_mem fun h => hu (hv.mem h)
  rw [x.run_append p fun v _ _ => x.tag.append v u hu, hcopy]

theorem runAll_append_left (xs : List Pass) (p : Progress) {u : Chars} (hu : '\x7b' ∉ u) (s : Chars) :
    runAll xs p (u ++ s) = (u ++ (runAll xs p s).1, (runAll xs p s).2) := by
  induction xs generalizing p s with
  | nil => rfl
  | cons x xs ih => rw [runAll, runAll, x.run_append_left p hu, ih]

theorem runAll_append_right (xs : List Pass) (p : Progress) {u : Chars} (hu : '\x7d' ∉ u) (s : Chars) :
    runAll xs p (s ++ u) = ((runAll xs p s).1 ++ u, (runAll xs p s).2) := by
  induction xs generalizing p s with
  | nil => rfl
  | cons x xs ih => rw [runAll, runAll, x.run_append_right p hu, ih]

/-! ## What is written ends behind its placeholders -/

/-- A pass that neither writes nor shelves a text which stops where a placeholder could go on. -/
structure Settling (x : Pass) : Prop where
  out : ∀ p body inside, Shelf.hangs inside (x.write p body).1 = false
  shelf : ∀ p body, Shelf.Settled p.shelf → Shelf.Settled (x.write p body).2.shelf

theorem Settling.run {x : Pass} (h : x.Settling) {p : Progress} {s : Chars}
    (hs : Shelf.hangs false s = false) (hp : Shelf.Settled p.shelf) :
    Shelf.hangs false (x.run p s).1 = false ∧ Shelf.Settled (x.run p s).2.shelf := by
  constructor
  · refine Shelf.hangs_substituteFrom x.find_suffix ?_ hs p
    intro p v out p' rest hf
    obtain ⟨a, -, rfl, -⟩ := find_eq_some hf
    exact h.out p a
  · refine Text.substituteFrom_invariant (P := fun p : Progress => Shelf.Settled p.shelf) ?_ hp s
    intro p v out p' rest hf hp
    obtain ⟨a, -, -, rfl⟩ := find_eq_some hf
    exact h.shelf p a hp

theorem Settling.runAll {xs : List Pass} (h : ∀ x ∈ xs, x.Settling) {p : Progress} {s : Chars}
    (hs : Shelf.hangs false s = false) (hp : Shelf.Settled p.shelf) :
    Shelf.hangs false (runAll xs p s).1 = false ∧ Shelf.Settled (Pass.runAll xs p s).2.shelf := by
  induction xs generalizing p s with
  | nil => exact ⟨hs, hp⟩
  | cons x xs ih =>
    obtain ⟨hs', hp'⟩ := (h x List.mem_cons_self).run hs hp
    exact ih (fun y hy => h y (List.mem_cons_of_mem x hy)) hs' hp'

theorem hangs_of_brace {s : Chars} (h : s.getLast? = some '\x7d') (inside : Bool) :
    Shelf.hangs inside s = false := Shelf.hangs_of_getLast? h (by decide) inside

theorem settling_plain {α : Type} {read : Chars → Option (α × Chars)} (tag : Directive.Tag read)
    {make : α → Chars} (h : ∀ a, (make a).getLast? = some '\x7d') : (plain tag make).Settling where
  out _ a := hangs_of_brace (h a)
  shelf _ _ hp := hp

theorem settling_shelving {read : Chars → Option (Chars × Chars)} (tag : Directive.Tag read)
    {make : Chars → Chars} (h : ∀ body, (make body).getLast? = some '\x7d') :
    (shelving tag make).Settling where
  out _ _ inside := Shelf.hangs_concat inside _ (by decide)
  shelf p body hp := by
    intro made hmade
    rcases List.mem_append.1 hmade with hold | hnew
    · exact hp made hold
    · rw [List.mem_singleton.1 hnew]
      exact hangs_of_brace (h body)

end Pass

end ViewBridge.Translator

namespace ViewBridge.Dialect

/-! ## Target text ends with a brace -/

theorem getLast?_output (e : Chars) : (output e).getLast? = some '\x7d' := by
  rw [output, List.getLast?_append]; rfl

theorem getLast?_tag (statement : Chars) : (tag statement).getLast? = some '\x7d' := by
  rw [tag, List.getLast?_append]; rfl

theorem getLast?_comment (body : Chars) : (comment body).getLast? = some '\x7d' := by
  rw [comment, List.getLast?_append]; rfl

theorem getLast?_append_tag (s statement : Chars) : (s ++ tag statement).getLast? = some '\x7d' := by
  rw [List.getLast?_append, getLast?_tag]; rfl

theorem getLast?_verbatim (d : Dialect) (body : Chars) : (d.verbatim body).getLast? = some '\x7d' := by
  cases d <;> exact getLast?_append_tag ..

theorem getLast?_filterForm? {d : Dialect} {helper arg out : Chars}
    (h : d.filterForm? helper arg = some out) : out.getLast? = some '\x7d' := by
  obtain ⟨filter, -, rfl⟩ := Option.map_eq_some_iff.1 h
  exact getLast?_output _

end ViewBridge.Dialect

namespace ViewBridge.Translator

open Dialect

theorem getLast?_emitInclude (t : Translator) (file : Chars) :
    (t.emitInclude file).getLast? = some '\x7d' := by
  obtain ⟨d, extension⟩ := t
  unfold emitInclude
  split
  · cases d
    · exact getLast?_output _
    · exact getLast?_tag _
  · split <;> cases d
    · exact getLast?_output _
    · exact getLast?_tag _
    · exact getLast?_output _
    · exact getLast?_tag _

theorem getLast?_emitLoop (t : Translator) (depth : Int) (h : Directive.LoopHeader) :
    (t.emitLoop depth h).getLast? = some '\x7d' := by
  obtain ⟨d, extension⟩ := t
  unfold emitLoop
  split
  · exact getLast?_tag _
  · split
    · cases d <;> exact getLast?_tag _
    · cases d <;> exact getLast?_tag _
    · exact getLast?_append_tag _ _

theorem getLast?_emitVariable (t : Translator) (body : Chars) :
    (t.emitVariable body).getLast? = some '\x7d' := by
  unfold emitVariable
  simp only
  split
  · exact getLast?_tag _
  · exact getLast?_output _

theorem getLast?_emitFunction (t : Translator) (body : Chars) :
    (t.emitFunction body).getLast? = some '\x7d' := by
  unfold emitFunction
  split
  · exact getLast?_output _
  · have hgetD (o : Option Chars) (e : Chars) (h : ∀ out, o = some out → out.getLast? = some '\x7d') :
        (o.getD (t.dialect.rawOutput e)).getLast? = some '\x7d' := by
      cases o with
      | none => exact getLast?_output _
      | some out => exact h out rfl
    exact hgetD _ _ fun out h => getLast?_filterForm? (Option.ite_none_right_eq_some.1 h).2
  · exact getLast?_output _

/-! ## The whole translator -/

theorem settling_loops (t : Translator) : (Pass.loops t).Settling where
  out p mark := by
    cases mark
    · exact Pass.hangs_of_brace (getLast?_emitLoop ..)
    · exact Pass.hangs_of_brace (getLast?_tag _)
  shelf p mark hp := by cases mark <;> exact hp

theorem settling_fixed (legacy statement : String) : (Pass.fixed legacy statement).Settling :=
  Pass.settling_plain _ fun _ => getLast?_tag _

theorem settling_passes (t : Translator) (stage : Stage) : ∀ x ∈ t.passes stage, x.Settling := by
  have hentities : ∀ a : Chars × Chars, ('\x7b' :: a.1 ++ "=\x22".toList ++ decodeEntities a.2 ++
      "\x22\x7d".toList).getLast? = some '\x7d' := fun a => by rw [List.getLast?_append]; rfl
  cases stage <;> simp only [passes, List.forall_mem_cons, List.not_mem_nil, false_implies, implies_true, and_true]
  case entities => exact Pass.settling_plain _ hentities
  case comments =>
    exact ⟨Pass.settling_shelving _ getLast?_comment, Pass.settling_shelving _ getLast?_comment⟩
  case verbatim => exact Pass.settling_shelving _ t.dialect.getLast?_verbatim
  case includes => exact Pass.settling_plain _ t.getLast?_emitInclude
  case loops => exact ⟨t.settling_loops, settling_fixed .., settling_fixed ..⟩
  case conditionals =>
    exact ⟨Pass.settling_plain _ fun _ => getLast?_tag _, Pass.settling_plain _ fun _ => getLast?_tag _,
      settling_fixed .., settling_fixed ..⟩
  case outputs =>
    exact ⟨Pass.settling_plain _ t.getLast?_emitVariable, Pass.settling_plain _ t.getLast?_emitFunction⟩
  case constants => exact Pass.settling_plain _ fun _ => getLast?_output _

theorem translateThrough_nil (t : Translator) (last : Stage) : t.translateThrough last [] = [] := by
  simp only [translateThrough, runStages_eq, Shelf.escape_nil, Pass.runAll_nil, Shelf.restore,
    Text.substitute_nil, Shelf.unescape_nil]

theorem translateThrough_append_left (t : Translator) (last : Stage) {u : Chars} (hu : '\x7b' ∉ u)
    (s : Chars) : t.translateThrough last (u ++ s) = u ++ t.translateThrough last s := by
  have hu' : '\x7b' ∉ Shelf.escape u := mt (Shelf.mem_escape (by decide)).1 hu
  simp only [translateThrough, runStages_eq, Shelf.escape_append, Pass.runAll_append_left _ _ hu',
    Shelf.restore_escape_append]

theorem translateThrough_append_right (t : Translator) (last : Stage) {u : Chars} (hu : '\x7d' ∉ u)
    (s : Chars) : t.translateThrough last (s ++ u) = t.translateThrough last s ++ u := by
  have hu' : '\x7d' ∉ Shelf.escape u := mt (Shelf.mem_escape (by decide)).1 hu
  have hpasses : ∀ x ∈ last.upTo.flatMap t.passes, x.Settling := by
    intro x hx
    obtain ⟨stage, -, hx⟩ := List.mem_flatMap.1 hx
    exact t.settling_passes stage x hx
  obtain ⟨hs, hp⟩ := Pass.Settling.runAll hpasses (p := {}) (Shelf.hangs_escape s) (fun _ h => nomatch h)
  simp only [translateThrough, runStages_eq, Shelf.escape_append, Pass.runAll_append_right _ _ hu',
    Shelf.restore_append_escape hp hs]

/-- Text in front of the first opening brace and behind the last closing brace of a template is copied, and
the rest is translated as if it stood alone. -/
theorem translateThrough_frame (t : Translator) (last : Stage) (s : Chars) :
    (∀ u, '\x7b' ∉ u → t.translateThrough last (u ++ s) = u ++ t.translateThrough last s) ∧
      (∀ u, '\x7d' ∉ u → t.translateThrough last (s ++ u) = t.translateThrough last s ++ u) ∧
      (∀ u, '\x7b' ∉ u → t.translateThrough last u = u) := by
  refine ⟨fun u hu => t.translateThrough_append_left last hu s,
    fun u hu => t.translateThrough_append_right last hu s, fun u hu => ?_⟩
  have hcopy := t.translateThrough_append_left last hu []
  rw [List.append_nil, translateThrough_nil, List.append_nil] at hcopy
  exact hcopy

/-- The two halves of a placeholder, on both sides of a half-open tag, are text like any other. -/
theorem translateThrough_frame_shields (t : Translator) (last : Stage) :
    t.translateThrough last ("\uE000".toList ++ "0\uE001\x7bif=\x22".toList) =
        "\uE000".toList ++ t.translateThrough last "0\uE001\x7bif=\x22".toList ∧
      t.translateThrough last ("\x7bif=\x22\uE000".toList ++ "0\uE001".toList) =
        t.translateThrough last "\x7bif=\x22\uE000".toList ++ "0\uE001".toList ∧
      t.translateThrough last "\uE0000\uE001".toList = "\uE0000\uE001".toList :=
  ⟨(translateThrough_frame t last _).1 _ (by decide),
    (translateThrough_frame t last _).2.1 _ (by decide),
    (translateThrough_frame t last []).2.2 _ (by decide)⟩

end ViewBridge.Translator
