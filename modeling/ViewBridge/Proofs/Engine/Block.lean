import ViewBridge.Proofs.Engine.Basic
import ViewBridge.Proofs.Exposure
import ViewBridge.Proofs.Template.Scanning
/-!
# Rendered blocks

A comment or an ignored block becomes a comment of the engine, a verbatim block a raw block, with the body
inside of the engine's own borders. So a comment vanishes if its body does not end the engine's comment, and a
verbatim block is written out if it comes to the engine with its body and that does not end the raw block.

Results:
* `translate_frame`: a block is translated by itself.
* `translate_comment`, `translate_of_kept`: what a comment and a block that is left alone become.
* `renderText_block`: what a rendered block writes.
-/
namespace ViewBridge

/-! ## Translated blocks -/

namespace Translator

variable {k : BlockKind} {pre body post : Chars}

/-- What stands between text without an opening and text without a closing brace is translated by itself. -/
theorem translate_frame (t : Translator) (hpre : '\x7b' ∉ pre) (hpost : '\x7d' ∉ post) (s : Chars) :
    t.translate (pre ++ (s ++ post)) = pre ++ (t.translate s ++ post) := by
  rw [translate, t.translateThrough_append_left _ hpre, t.translateThrough_append_right _ hpost]
  rfl

/-- The mark that ends a comment of the target dialects is not made by any early pass. -/
theorem marker_commentEnd : Marker ['#', '\x7d'] :=
  ⟨⟨'#', ['\x7d'], rfl, by decide, by decide, by decide⟩, by decide⟩

theorem infix_of_infix_unescape {w s : Chars} (h : Marker w) (hs : w <:+: Shelf.unescape s) : w <:+: s := by
  refine h.infix_of_infix_replace (by simp) (by simp) (fun c hc hw => ?_) hs
  exact (h.clear_of_mem hw).2.2.1 (List.mem_singleton.1 hc)

theorem unescape_comment (body : Chars) :
    Shelf.unescape (Dialect.comment body) = Dialect.comment (Shelf.unescape body) := by
  have hplain {s : Chars} (hs : Shelf.opening ∉ s) (r : Chars) :
      Shelf.unescape (s ++ r) = s ++ Shelf.unescape r := by
    have := Shelf.unescape_escape_append s r
    rwa [Shelf.escape_eq_self hs] at this
  have htail : Shelf.unescape " #\x7d".toList = " #\x7d".toList := by
    have := hplain (s := " #\x7d".toList) (by decide) []
    rwa [Shelf.unescape_nil, List.append_nil] at this
  have hbody : Shelf.unescape (body ++ " #\x7d".toList) = Shelf.unescape body ++ " #\x7d".toList :=
    (Shelf.unescape_append_cons (c := ' ') (by decide) (by decide) body "#\x7d".toList).trans
      (congrArg (Shelf.unescape body ++ ·) htail)
  rw [Dialect.comment, Dialect.comment, List.append_assoc, hplain (by decide), hbody, List.append_assoc]

/-- A comment or an ignored block becomes a comment of the target dialect, and none of the passes brings an
end mark into it. -/
theorem translate_comment (t : Translator) (hk : k ≠ .verbatim) (hbody : ¬ k.closing <:+: body)
    (hmark : ¬ ['#', '\x7d'] <:+: body) :
    ∃ body', t.translate (k.source body) = Dialect.comment body' ∧ ¬ ['#', '\x7d'] <:+: body' := by
  have houtput (s : Chars) : k.output t s = Dialect.comment s := by
    cases k <;> first | rfl | exact absurd rfl hk
  rw [translate_block t k hbody, houtput]
  generalize hrun : (Pass.runAll (t.earlyPasses k) {} (Shelf.escape body)).1 = body'
  refine ⟨Shelf.unescape body', ?_, fun h => hmark ?_⟩
  · exact unescape_comment body'
  · rw [← hrun] at h
    exact marker_commentEnd.infix_of_infix_escape (marker_commentEnd.infix_of_infix_runAll (fun _ hx => hx)
      (infix_of_infix_unescape marker_commentEnd h))

theorem runAll_of_leftBy {xs : List Pass} {p : Progress} {block : Chars} (h : LeftBy xs p [] block []) :
    Pass.runAll xs p block = (block, p) := by
  induction xs with
  | nil => rfl
  | cons x xs ih =>
    obtain ⟨hx, hleft⟩ := h
    have hrun := hx.run p
    simp only [x.run_nil, List.nil_append, List.append_nil] at hrun hleft
    rw [Pass.runAll, hrun]
    exact ih hleft

/-- A block that is left alone becomes its output with its body. -/
theorem translate_of_kept {t : Translator} (hbody : ¬ k.closing <:+: body) (h : Kept t k [] body []) :
    t.translate (k.source body) = k.output t body := by
  have hleft := h.left
  rw [Shelf.escape_nil] at hleft
  have hsource := runAll_source (fun x => early_of_mem (t := t) (k := k)) {} (Shelf.escape body)
  rw [runAll_of_leftBy hleft] at hsource
  have hsame : (Pass.runAll (t.earlyPasses k) {} (Shelf.escape body)).1 = Shelf.escape body := by
    have hcancel := List.append_cancel_left (congrArg Prod.fst hsource)
    exact (List.append_cancel_right hcancel).symm
  have hundo := Shelf.unescape_escape_append (k.output t body) []
  rw [List.append_nil, Shelf.unescape_nil, List.append_nil] at hundo
  rw [translate_block t k hbody, hsame, ← k.escape_output, hundo]

end Translator

/-! ## Rendered blocks -/

namespace Engine

open Translator (BlockKind)

/-- A block between text is rendered as that text and, if it is a verbatim one, its body: a comment or an
ignored block if the engine's end mark of comments does not stand in its body, a verbatim block if the passes
in front of its own leave it alone and no end tag of a raw block stands in its body. Nothing is remembered. -/
theorem renderText_block {r : Resolver} {settings : EngineSettings} {e : Engine}
    (he : ofResolver r settings = .ok e) {pre post : Chars} (hpre : '\x7b' ∉ pre) (hpost : '\x7b' ∉ post)
    (hclose : '\x7d' ∉ post) (t : FileTree) (cache : Cache) (now : Instant) (context : Value) :
    (∀ k : BlockKind, k ≠ .verbatim → ∀ body, ¬ k.closing <:+: body → ¬ ['#', '\x7d'] <:+: body →
      e.renderText t cache now (pre ++ (k.source body ++ post)) context =
        (.ok (pre ++ Template.withoutLastBreak post), e, cache)) ∧
    (∀ body, ¬ BlockKind.closing .verbatim <:+: body → Translator.Kept r.translator .verbatim [] body [] →
      Template.readRaw body = none →
      e.renderText t cache now (pre ++ (BlockKind.source .verbatim body ++ post)) context =
        (.ok (pre ++ (body ++ Template.withoutLastBreak post)), e, cache)) := by
  obtain ⟨rfl, hdialect, -⟩ := eq_of_ofResolver he
  refine ⟨fun k hk body hbody hmark => ?_, fun body hbody hkept hraw => ?_⟩
  · obtain ⟨body', htranslate, hmark'⟩ := Translator.translate_comment e.resolver.translator hk hbody hmark
    obtain ⟨pieces, hpieces, hflatten⟩ := Template.tokens_comment hpre hmark' hpost
    rw [← htranslate, ← Translator.translate_frame _ hpre hclose] at hpieces
    rw [renderText_of_data e hpieces, hflatten]
  · have htranslate := Translator.translate_of_kept hbody hkept
    have houtput : BlockKind.output e.resolver.translator .verbatim body = Dialect.verbatim .minijinja body := by
      rw [← hdialect]
      rfl
    obtain ⟨pieces, hpieces, hflatten⟩ := Template.tokens_raw hpre hraw hpost
    rw [← houtput, ← htranslate, ← Translator.translate_frame _ hpre hclose] at hpieces
    rw [renderText_of_data e hpieces, hflatten]

/-- A variable in a comment vanishes with it, and one in a verbatim block is written out. -/
theorem renderText_block_variable :
    let r : Resolver := ⟨⟨[], "/view".toList⟩, ⟨.minijinja, "html".toList⟩⟩
    let e : Engine := { resolver := r, functions := [], constants := [] }
    let t := FileTree.empty []
    ofResolver r { functions := [] } = .ok e ∧
      ¬ BlockKind.closing .comment <:+: "\x7b$x\x7d".toList ∧ ¬ ['#', '\x7d'] <:+: "\x7b$x\x7d".toList ∧
      Translator.Kept r.translator .verbatim [] "\x7b$x\x7d".toList [] ∧
      Template.readRaw "\x7b$x\x7d".toList = none ∧
      e.renderText t {} ⟨0, 0⟩ "a\x7b*\x7b$x\x7d*\x7db".toList .undefined = (.ok "ab".toList, e, {}) ∧
      e.renderText t {} ⟨0, 0⟩ "a\x7bnoparse\x7d\x7b$x\x7d\x7b/noparse\x7db".toList .undefined =
        (.ok "a\x7b$x\x7db".toList, e, {}) := by
  intro r e t
  have he : ofResolver r { functions := [] } = .ok e := rfl
  have hcomment : ¬ BlockKind.closing .comment <:+: "\x7b$x\x7d".toList :=
    (Text.cut?_eq_none_iff (by decide) _).1 rfl
  have hmark : ¬ ['#', '\x7d'] <:+: "\x7b$x\x7d".toList := (Text.cut?_eq_none_iff (by decide) _).1 rfl
  have hclosing : ¬ BlockKind.closing .verbatim <:+: "\x7b$x\x7d".toList :=
    (Text.cut?_eq_none_iff (by decide) _).1 rfl
  have hreads : ∀ x ∈ r.translator.earlyPasses .verbatim, ∀ v, v <:+ "\x7b$x\x7d".toList → x.read v = none := by
    intro x hx v hv
    have hall : ("\x7b$x\x7d".toList.tails.all fun v => (x.read v).isNone) = true := by
      simp only [Translator.earlyPasses, BlockKind.before, List.map_cons, List.map_nil, List.mem_cons,
        List.not_mem_nil, or_false] at hx
      rcases hx with rfl | rfl | rfl <;> decide
    exact Option.isNone_iff_eq_none.1 (List.all_eq_true.1 hall v ((List.mem_tails v _).2 hv))
  have hkept : Translator.Kept r.translator .verbatim [] "\x7b$x\x7d".toList [] := by
    refine Translator.kept_of_leftBy hclosing ?_
    rw [Shelf.escape_eq_self (by decide)]
    exact Translator.leftBy_of_reads (fun x => Translator.early_of_mem) hreads
  have hraw : Template.readRaw "\x7b$x\x7d".toList = none := by decide +kernel
  have hbreak : Template.withoutLastBreak ['b'] = ['b'] := by decide
  have hsource : ['a'] ++ (BlockKind.source .comment "\x7b$x\x7d".toList ++ ['b']) =
      "a\x7b*\x7b$x\x7d*\x7db".toList := by decide
  have hsource' : ['a'] ++ (BlockKind.source .verbatim "\x7b$x\x7d".toList ++ ['b']) =
      "a\x7bnoparse\x7d\x7b$x\x7d\x7b/noparse\x7db".toList := by decide
  obtain ⟨hcomments, hverbatim⟩ := renderText_block he (show '\x7b' ∉ ['a'] by decide)
    (show '\x7b' ∉ ['b'] by decide) (by decide) t {} ⟨0, 0⟩ .undefined
  have hab := hcomments .comment (by decide) _ hcomment hmark
  have haxb := hverbatim _ hclosing hkept hraw
  rw [hsource, hbreak] at hab
  rw [hsource', hbreak] at haxb
  exact ⟨he, hcomment, hmark, hkept, hraw, hab, haxb⟩

/-- A constant in a comment ends the comment of the engine. -/
example :
    let e : Engine :=
      { resolver := ⟨⟨[], "/view".toList⟩, ⟨.minijinja, "html".toList⟩⟩, functions := [], constants := [] }
    (e.renderText (FileTree.empty []) {} ⟨0, 0⟩ "a\x7b*\x7b#A#\x7d*\x7db".toList .undefined).1.toOption =
      some "a #\x7db".toList := by
  decide +kernel

end Engine
end ViewBridge
