import ViewBridge.Proofs.Carrier
import ViewBridge.Proofs.Frame
/-!
# Shielded bodies

The body of a block is kept byte for byte as long as the passes in front of the block's own one leave the
block alone: a pass over entities and over earlier kinds of blocks sees the body like any other text. Behind
its own pass a block is a placeholder, which only a counting loop can lose, by not writing a name it binds.

Results:
* `Apart.run`: a pass that leaves a block alone.
* `runAll_blocks`: behind the early passes a placeholder stands for the block.
* `output_infix_of_kept`: a block that is left alone comes out with its body.
-/
namespace ViewBridge.Translator

open ViewBridge.Shelf (Solid)

/-! ## Blocks that are left alone -/

/-- A pass reads nothing into a block from in front of it, and nothing from inside of it. -/
structure Apart (x : Pass) (pre block post : Chars) : Prop where
  before : ∀ v, v ≠ [] → v <:+ pre →
    x.read (v ++ (block ++ post)) = (x.read v).map fun (a, rest) => (a, rest ++ (block ++ post))
  within : ∀ v, v ≠ [] → v <:+ block → x.read (v ++ post) = none

theorem Apart.run {x : Pass} {pre block post : Chars} (h : Apart x pre block post) (p : Progress) :
    x.run p (pre ++ (block ++ post)) =
      ((x.run p pre).1 ++ (block ++ (x.run (x.run p pre).2 post).1), (x.run (x.run p pre).2 post).2) := by
  rw [x.run_append p h.before, x.run_append_of_none _ h.within]

/-- Passes that leave a block alone, one after the other. -/
def LeftBy : List Pass → Progress → (pre block post : Chars) → Prop
  | [], _, _, _, _ => True
  | x :: xs, p, pre, block, post =>
    Apart x pre block post ∧
      LeftBy xs (x.run (x.run p pre).2 post).2 (x.run p pre).1 block (x.run (x.run p pre).2 post).1

/-- The passes in front of that of a kind of blocks. -/
def earlyPasses (t : Translator) (k : BlockKind) : List Pass := entityPass :: k.before.map (BlockKind.pass t)

/-- A block with this body is kept between the two texts: the early passes leave it alone, and no counting
loop binds its placeholder. -/
structure Kept (t : Translator) (k : BlockKind) (pre body post : Chars) : Prop where
  left : LeftBy (t.earlyPasses k) {} (Shelf.escape pre) (k.source (Shelf.escape body)) (Shelf.escape post)
  written :
    let s := Shelf.escape (pre ++ (k.source body ++ post))
    let number := (Pass.runAll (t.earlyPasses k) {} s).2.shelf.length
    ¬ Directive.Unwritten (Shelf.placeholder number (k.output t (Shelf.escape body)))
      (t.runStages (Stage.upTo .includes) {} s).1

theorem Marker.infix_of_infix_earlyPasses {w : Chars} (h : Marker w) {t : Translator} {k : BlockKind}
    {x : Pass} (hx : x ∈ t.earlyPasses k) {p : Progress} {s : Chars} (hs : w <:+: (x.run p s).1) :
    w <:+: s := by
  rcases List.mem_cons.1 hx with rfl | hx
  · exact h.infix_of_infix_entityPass hs
  · obtain ⟨j, -, rfl⟩ := List.mem_map.1 hx
    exact h.infix_of_infix_pass t j hs

/-- What is left alone is still there, and no marker came into being in front of it. -/
theorem LeftBy.run {xs : List Pass} {p : Progress} {pre block post : Chars} (h : LeftBy xs p pre block post)
    (hxs : ∀ x ∈ xs, ∀ w, Marker w → ∀ p s, w <:+: (x.run p s).1 → w <:+: s) :
    ∃ pre' post' p', Pass.runAll xs p (pre ++ (block ++ post)) = (pre' ++ (block ++ post'), p') ∧
      ∀ w, Marker w → w <:+: pre' → w <:+: pre := by
  induction xs generalizing p pre post with
  | nil => exact ⟨pre, post, p, rfl, fun _ _ hw => hw⟩
  | cons x xs ih =>
    obtain ⟨hx, hleft⟩ := h
    rw [List.forall_mem_cons] at hxs
    obtain ⟨pre', post', p', hrun, hmarker⟩ := ih hleft hxs.2
    refine ⟨pre', post', p', ?_, fun w hw hpre => hxs.1 w hw _ _ (hmarker w hw hpre)⟩
    rw [Pass.runAll, hx.run]
    exact hrun

/-! ## The block's own pass and those behind it -/

/-- A marker does not lie over the start of a block. -/
theorem BlockKind.read_append_eq_none (k : BlockKind) {v pre : Chars} (hv : v ≠ []) (hsuffix : v <:+ pre)
    (hpre : ¬ k.opening <:+: pre) {c : Char} (hc : c ∉ k.opening.tail) (t : Chars) :
    k.read (v ++ c :: t) = none := by
  obtain ⟨a, as, ho, -⟩ := k.marker_opening.word
  rw [ho, List.tail_cons] at hc
  cases hread : k.read (v ++ c :: t) with
  | none => rfl
  | some r =>
    have hstart := BlockKind.opening_prefix hread
    rw [ho] at hstart hpre
    obtain ⟨d, ds, rfl⟩ := List.exists_cons_of_ne_nil hv
    rw [List.cons_append, List.cons_prefix_cons] at hstart
    have htail := Text.prefix_of_prefix_append_cons hc hstart.2
    exact absurd ((List.cons_prefix_cons.2 ⟨hstart.1, htail⟩).isInfix.trans hsuffix.isInfix) hpre

/-- The shelf only grows. -/
theorem shelf_prefix_run_pass (t : Translator) (k : BlockKind) (p : Progress) (s : Chars) :
    p.shelf <+: ((k.pass t).run p s).2.shelf := by
  refine Text.substituteFrom_invariant (P := fun q : Progress => p.shelf <+: q.shelf) ?_
    (List.prefix_refl _) s
  intro q v out q' rest hf hq
  obtain ⟨body, -, -, rfl⟩ := Pass.find_eq_some hf
  exact hq.trans (List.prefix_append _ _)

theorem shelf_prefix_runAll_pass (t : Translator) (ks : List BlockKind) (p : Progress) (s : Chars) :
    p.shelf <+: (Pass.runAll (ks.map (BlockKind.pass t)) p s).2.shelf := by
  induction ks generalizing p s with
  | nil => exact List.prefix_refl _
  | cons k ks ih => exact (shelf_prefix_run_pass t k p s).trans (ih _ _)

/-- A block becomes a placeholder for what is put on the shelf. -/
theorem run_pass_source (t : Translator) (k : BlockKind) {pre body : Chars} (hpre : ¬ k.opening <:+: pre)
    (hbody : ¬ k.closing <:+: body) (p : Progress) (post : Chars) :
    (k.pass t).run p (pre ++ (k.source body ++ post)) =
      (pre ++ (Shelf.placeholder p.shelf.length (k.output t body) ++
          ((k.pass t).run (p.shelving (k.output t body)) post).1),
        ((k.pass t).run (p.shelving (k.output t body)) post).2) := by
  have hfind : (k.pass t).find p (k.source body ++ post) =
      some (Shelf.placeholder p.shelf.length (k.output t body), p.shelving (k.output t body), post) := by
    rw [BlockKind.find_pass, k.read_source hbody post, Option.map_some]
  have hlen : post.length < (k.source body ++ post).length := by
    have := List.length_pos_iff.2 k.marker_opening.ne_nil
    simp only [BlockKind.source, List.length_append]
    omega
  have hskip : ∀ v, v ≠ [] → v <:+ pre → (k.pass t).find p (v ++ (k.source body ++ post)) = none := by
    intro v hv hsuffix
    obtain ⟨a, as, ho, ha, -⟩ := k.marker_opening.word
    have hnone := k.read_append_eq_none hv hsuffix hpre (c := a) (by rw [ho]; exact ha)
      (as ++ (body ++ (k.closing ++ post)))
    rw [BlockKind.find_pass, BlockKind.source, ho]
    simp only [List.cons_append, List.append_assoc]
    rw [hnone, Option.map_none]
  rw [Pass.run, Text.substituteFrom_append_of_none hskip, Text.substituteFrom_of_some hfind hlen]
  rfl

/-- The passes over other kinds of blocks leave a placeholder where it is. -/
theorem run_pass_placeholder (t : Translator) (k : BlockKind) {w pre : Chars} (hw : Solid w)
    (hpre : ¬ k.opening <:+: pre) (p : Progress) (post : Chars) :
    (k.pass t).run p (pre ++ (w ++ post)) =
      (pre ++ (w ++ ((k.pass t).run p post).1), ((k.pass t).run p post).2) := by
  have hshield : Shelf.opening ∉ k.opening.tail := fun hm =>
    (k.marker_opening.clear_of_mem (List.mem_of_mem_tail hm)).2.2.1 rfl
  have hskip : ∀ v, v ≠ [] → v <:+ pre → k.read (v ++ (w ++ post)) = none := by
    intro v hv hsuffix
    obtain ⟨inner, rfl⟩ := hw.ends
    exact k.read_append_eq_none hv hsuffix hpre hshield _
  have hcopy : (k.pass t).run p (w ++ post) = (w ++ ((k.pass t).run p post).1, ((k.pass t).run p post).2) :=
    (k.pass t).run_append_left p (hw.not_mem rfl) post
  rw [(k.pass t).run_append_of_none p hskip, hcopy]

/-- So do several of them. -/
theorem runAll_pass_placeholder (t : Translator) (ks : List BlockKind) {w pre : Chars} (hw : Solid w)
    (hpre : ∀ k ∈ ks, ¬ BlockKind.opening k <:+: pre) (p : Progress) (post : Chars) :
    Pass.runAll (ks.map (BlockKind.pass t)) p (pre ++ (w ++ post)) =
      (pre ++ (w ++ (Pass.runAll (ks.map (BlockKind.pass t)) p post).1),
        (Pass.runAll (ks.map (BlockKind.pass t)) p post).2) := by
  induction ks generalizing p post with
  | nil => rfl
  | cons k ks ih =>
    rw [List.forall_mem_cons] at hpre
    rw [List.map_cons, Pass.runAll, run_pass_placeholder t k hw hpre.1, ih hpre.2]
    rfl

/-- The late passes put nothing on the shelf. -/
theorem shelf_runAll_latePasses (t : Translator) (p : Progress) (s : Chars) :
    (Pass.runAll t.latePasses p s).2.shelf = p.shelf := by
  have hpass {x : Pass} (hx : x ∈ t.latePasses) {q q' : Progress} {v out rest : Chars}
      (hf : x.find q v = some (out, q', rest)) : q'.shelf = q.shelf := by
    obtain ⟨a, -, -, rfl⟩ := Pass.find_eq_some hf
    simp only [latePasses, passes, List.flatMap_cons, List.flatMap_nil, List.cons_append, List.nil_append,
      List.mem_cons, List.not_mem_nil, or_false] at hx
    rcases hx with rfl | rfl | rfl | rfl | rfl | rfl | rfl | rfl | rfl | rfl | rfl <;>
      first | rfl | skip
    cases a <;> rfl
  have hall (xs : List Pass) (hxs : ∀ x ∈ xs, x ∈ t.latePasses) (p : Progress) (s : Chars) :
      (Pass.runAll xs p s).2.shelf = p.shelf := by
    induction xs generalizing p s with
    | nil => rfl
    | cons x xs ih =>
      rw [List.forall_mem_cons] at hxs
      rw [Pass.runAll, ih hxs.2]
      exact Text.substituteFrom_invariant (P := fun q : Progress => q.shelf = p.shelf)
        (fun hf hq => (hpass hxs.1 hf).trans hq) rfl s
  exact hall _ (fun _ hx => hx) p s

/-! ## Blocks that are kept -/

namespace BlockKind

theorem output_eq (t : Translator) (k : BlockKind) :
    ∃ lead tail, Shelf.opening ∉ lead ∧ Shelf.opening ∉ tail ∧
      ∀ body, k.output t body = '\x7b' :: lead ++ body ++ tail := by
  cases k with
  | comment => exact ⟨"# ".toList, " #\x7d".toList, by decide, by decide, fun _ => rfl⟩
  | ignored => exact ⟨"# ".toList, " #\x7d".toList, by decide, by decide, fun _ => rfl⟩
  | verbatim =>
    cases t with | mk d extension => cases d with
    | twig =>
      exact ⟨"% verbatim %\x7d".toList, Dialect.tag "endverbatim".toList, by decide, by decide, fun _ => rfl⟩
    | minijinja =>
      exact ⟨"% raw %\x7d".toList, Dialect.tag "endraw".toList, by decide, by decide, fun _ => rfl⟩

theorem escape_output (t : Translator) (k : BlockKind) (body : Chars) :
    Shelf.escape (k.output t body) = k.output t (Shelf.escape body) := by
  obtain ⟨lead, tail, hlead, htail, hout⟩ := k.output_eq t
  have hlead' : Shelf.opening ∉ '\x7b' :: lead := by
    rw [List.mem_cons, not_or]
    exact ⟨by decide, hlead⟩
  rw [hout, hout, Shelf.escape_append, Shelf.escape_append, Shelf.escape_eq_self hlead',
    Shelf.escape_eq_self htail]

theorem escape_source (k : BlockKind) (body : Chars) :
    Shelf.escape (k.source body) = k.source (Shelf.escape body) := by
  have hmarker {w : Chars} (hw : Marker w) : Shelf.escape w = w :=
    Shelf.escape_eq_self fun hm => (hw.clear_of_mem hm).2.2.1 rfl
  rw [source, source, Shelf.escape_append, Shelf.escape_append, hmarker k.marker_opening,
    hmarker k.marker_closing]

end BlockKind

theorem earlyPasses_append (t : Translator) (k : BlockKind) (xs : List Pass) :
    entityPass :: (k.before.map (BlockKind.pass t) ++ xs) = t.earlyPasses k ++ xs := rfl

theorem upTo_includes_eq (t : Translator) (k : BlockKind) :
    (Stage.upTo .includes).flatMap t.passes =
      t.earlyPasses k ++ (k.pass t :: (k.behind.map (BlockKind.pass t)) ++ t.passes .includes) := by
  cases k <;> rfl

/-- A text with a block in it is, behind the early passes, one with a placeholder for the block. -/
theorem runAll_blocks (t : Translator) (k : BlockKind) (pre post : Chars) {s body : Chars} {p : Progress}
    (hearly : Pass.runAll (t.earlyPasses k) {} s = (pre ++ (k.source body ++ post), p))
    (hpre : ∀ j : BlockKind, ¬ j.opening <:+: pre) (hbody : ¬ k.closing <:+: body) :
    let own := (k.pass t).run (p.shelving (k.output t body)) post
    let rest := Pass.runAll (k.behind.map (BlockKind.pass t)) own.2 own.1
    Pass.runAll (t.earlyPasses k ++ k.pass t :: k.behind.map (BlockKind.pass t)) {} s =
        (pre ++ (Shelf.placeholder p.shelf.length (k.output t body) ++ rest.1), rest.2) ∧
      rest.2.shelf[p.shelf.length]? = some (k.output t body) := by
  intro own rest
  constructor
  · rw [Pass.runAll_append, hearly, Pass.runAll, run_pass_source t k (hpre k) hbody,
      runAll_pass_placeholder t k.behind (.placeholder _ _) fun j _ => hpre j]
  · obtain ⟨more, hmore⟩ := (shelf_prefix_run_pass t k (p.shelving (k.output t body)) post).trans
      (shelf_prefix_runAll_pass t k.behind own.2 own.1)
    have hshelf : rest.2.shelf = p.shelf ++ (k.output t body :: more) := by
      rw [← hmore, Progress.shelving, List.append_assoc]
      rfl
    rw [hshelf, List.getElem?_append_right (Nat.le_refl _), Nat.sub_self]
    rfl

theorem translate_eq_of_blocks (t : Translator) (k : BlockKind) {source s : Chars} {p : Progress}
    (h : Pass.runAll (t.earlyPasses k ++ k.pass t :: k.behind.map (BlockKind.pass t)) {}
      (Shelf.escape source) = (s, p)) :
    t.translate source = Shelf.restore p.shelf (Pass.runAll t.latePasses p s).1 := by
  rw [translate_eq, runStages_eq, pipeline_eq t k, Pass.runAll_append, earlyPasses_append, h,
    shelf_runAll_latePasses]

theorem runStages_upTo_includes_of_blocks (t : Translator) (k : BlockKind) {s s' : Chars} {p : Progress}
    (h : Pass.runAll (t.earlyPasses k ++ k.pass t :: k.behind.map (BlockKind.pass t)) {} s = (s', p)) :
    (t.runStages (Stage.upTo .includes) {} s).1 = (Pass.runAll (t.passes .includes) p s').1 := by
  rw [runStages_eq, upTo_includes_eq t k, ← List.append_assoc, Pass.runAll_append, h]

/-- A block that is left alone, and whose placeholder is written, comes out with its body. -/
theorem output_infix_of_kept {t : Translator} {k : BlockKind} {pre body post : Chars}
    (hpre : ∀ j : BlockKind, ¬ j.opening <:+: pre) (hbody : ¬ k.closing <:+: body)
    (h : Kept t k pre body post) : k.output t body <:+: t.translate (pre ++ (k.source body ++ post)) := by
  have hsource : Shelf.escape (pre ++ (k.source body ++ post)) =
      Shelf.escape pre ++ (k.source (Shelf.escape body) ++ Shelf.escape post) := by
    rw [Shelf.escape_append, Shelf.escape_append, k.escape_source]
  obtain ⟨pre', post', p, hearly, hmarker⟩ :=
    h.left.run fun x hx w hw p s => hw.infix_of_infix_earlyPasses hx
  rw [← hsource] at hearly
  have hpre' (j : BlockKind) : ¬ j.opening <:+: pre' := fun hj =>
    hpre j (j.marker_opening.infix_of_infix_escape (hmarker _ j.marker_opening hj))
  obtain ⟨hblocks, hplace⟩ := runAll_blocks t k _ _ hearly hpre' (mt k.marker_closing.infix_of_infix_escape hbody)
  have hwritten := h.written
  simp only [runStages_upTo_includes_of_blocks t k hblocks, hearly] at hwritten
  obtain ⟨a, b, hlate⟩ := infix_latePasses (.placeholder _ _) t _ hwritten
    (List.infix_append_of_infix_right List.infix_append_left)
  obtain ⟨lead, tail, -, -, hout⟩ := k.output_eq t
  have hbrace : k.output t body = '\x7b' :: (lead ++ body ++ tail) := hout body
  have hshelved : k.output t (Shelf.escape body) = Shelf.escape ('\x7b' :: (lead ++ body ++ tail)) := by
    rw [← k.escape_output, hbrace]
  rw [translate_eq_of_blocks t k hblocks, ← hlate, List.append_assoc,
    Shelf.restore_append_placeholder (hplace.trans (congrArg some hshelved)) (by decide) (by decide), hbrace]
  exact List.infix_append_of_infix_right List.infix_append_left

end ViewBridge.Translator
