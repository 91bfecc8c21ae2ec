import ViewBridge.Proofs.Item.Basic
import ViewBridge.Proofs.Item.Silence
/-!
# Recoded passes

The readers of tags ask for no mute character but the braces. So a pass over a recoded text reads the tags that it
reads in the text, each with its texts recoded, and leaves the recoded text; the bodies that it puts on the shelf are
recoded, too.

Results:
* `reads_readLoop`, `reads_readEntityTag`, …: the readers of tags.
* `Pass.Recodes.run`, `Pass.Recodes.runAll`: what passes leave of a recoded text.
* `recodes_passes`: all passes of a translator.
-/
namespace ViewBridge

namespace Recoding

variable {r : Recoding}

/-! ## Readers -/

/-- A loop tag with its texts recoded. -/
def loopTag (r : Recoding) : Directive.LoopMark → Directive.LoopMark
  | .opening header => .opening (r.loopHeader header)
  | .closing => .closing

/-- A reader that finds in a recoded text what it finds in the text, with the texts in it recoded. -/
def Reads {α : Type} (r : Recoding) (read : Chars → Option (α × Chars)) (recode : α → α) : Prop :=
  ∀ s, read (r.text s) = (read s).map fun (a, rest) => (recode a, r.text rest)

namespace Reads

variable {read read' : Chars → Option (Chars × Chars)}

/-- A reader that refuses empty texts. -/
theorem filter (h : r.Reads read r.text) : r.Reads (fun s => (read s).filter fun (body, _) => body != []) r.text := by
  intro s
  simp only [h s]
  cases read s with
  | none => rfl
  | some q =>
    have hempty : (r.text q.1 != []) = (q.1 != []) := by
      rw [Bool.eq_iff_iff, bne_iff_ne, bne_iff_ne, ne_eq, r.text_eq_nil_iff]
    simp only [Option.map_some, Option.filter, hempty]
    split <;> rfl

theorem or {α : Type} {recode : α → α} {read read' : Chars → Option (α × Chars)} (h : r.Reads read recode)
    (h' : r.Reads read' recode) : r.Reads (fun s => (read s).or (read' s)) recode := by
  intro s
  simp only [h s, h' s]
  cases read s <;> rfl

end Reads

theorem startsVariable_text (r : Recoding) (body : Chars) :
    Directive.startsVariable (r.text body) = Directive.startsVariable body := by
  cases body with
  | nil => rfl
  | cons c cs =>
    by_cases hc : c = '$'
    · subst hc
      rw [r.text_cons_of_spoken (isMute_of_isTagChar rfl)]
      simp only [Directive.startsVariable, List.head?_cons, List.tail_cons,
        r.head?_any_text fun _ => isNameStart_of_isMute]
    · have hhead := mt (r.head?_text_eq_some_iff (c := '$') (by decide) (c :: cs)).1 (by simpa using hc)
      rw [Directive.startsVariable, beq_eq_false_iff_ne.2 hhead, Directive.startsVariable, List.head?_cons,
        beq_eq_false_iff_ne.2 (by simpa using hc)]
      rfl

theorem bindingTexts_text (r : Recoding) (inner : Chars) : Directive.bindingTexts (r.text inner) =
    (Directive.bindingTexts inner).map fun (key, value) => (r.text key, value.map r.text) := by
  unfold Directive.bindingTexts
  rw [r.contains_text (by decide)]
  split
  · rfl
  · cases inner with
    | nil => rfl
    | cons c more =>
      by_cases hc : c = '$'
      · subst hc
        have hsigil := r.text_cons_of_spoken (c := '$') (isMute_of_isTagChar rfl)
        have hcut := r.cut?_text (show " => $".toList ≠ [] by decide) (by decide) more
        simp only [hsigil, hcut]
        cases Text.cut? " => $".toList more with
        | none => simp only [Option.map_none, Option.map_some, hsigil]
        | some q => simp only [Option.map_some, hsigil]
      · have hhead := mt (r.head?_text_eq_some_iff (c := '$') (by decide) (c :: more)).1 (by simpa using hc)
        split
        · rename_i heq
          rw [heq] at hhead
          exact absurd rfl hhead
        · split
          · rename_i heq
            exact absurd (List.cons.inj heq).1 hc
          · rfl

namespace Framed

variable (hr : r.Framed)
include hr

/-- The characters of tags and their braces stand for themselves alone. -/
theorem fixes {s : Chars} (hs : (s.all fun c => isTagChar c || isBrace c) = true) : ∀ c ∈ s, r.Fixes c := by
  intro c hc
  have hkind := List.all_eq_true.1 hs c hc
  rw [Bool.or_eq_true] at hkind
  rcases hkind with hchar | hbrace
  · exact fixes_of_spoken (isMute_of_isTagChar hchar)
  · refine ⟨hr.brace c hbrace, fun d hd => ?_⟩
    cases hdb : isBrace d with
    | true => exact (List.mem_singleton.1 (hr.brace d hdb ▸ hd)).symm
    | false =>
      rw [hr.other d hdb c hd] at hbrace
      cases hbrace

theorem after? (lead : Chars) (hlead : (lead.all fun c => isTagChar c || isBrace c) = true) (s : Chars) :
    Text.after? lead (r.text s) = (Text.after? lead s).map r.text := after?_text_of_fixes (hr.fixes hlead) s

theorem reads_readBlock {opening closing : Chars} (ho : (opening.all fun c => isTagChar c || isBrace c) = true)
    (hne : closing ≠ []) (hc : (closing.all fun c => isTagChar c || isBrace c) = true) :
    r.Reads (Directive.readBlock opening closing) r.text := by
  intro s
  rw [Directive.readBlock, hr.after? _ ho, Directive.readBlock]
  cases Text.after? opening s with
  | none => rfl
  | some s => exact cut?_text_of_fixes hne (hr.fixes hc) s

theorem reads_readArgument {lead : Chars} (hlead : (lead.all fun c => isTagChar c || isBrace c) = true) :
    r.Reads (Directive.readArgument lead) r.text := by
  intro s
  simp only [Directive.readArgument, Option.bind_eq_bind, Option.pure_def, hr.after? _ hlead s]
  cases Text.after? lead s with
  | none => rfl
  | some s =>
    have hspan := r.span_text (fun c hc => bne_iff_ne.2 (ne_of_isMute hc (d := '\x22') (isMute_of_isTagChar rfl))) s
    simp only [Option.map_some, Option.bind_some, hspan.1, hspan.2, hr.after? "\x22\x7d".toList (by decide)]
    cases Text.after? "\x22\x7d".toList (s.dropWhile (· != '\x22')) <;> rfl

theorem reads_readEntityBody : r.Reads Directive.readEntityBody r.text := by
  have hcut (w s : Chars) (hw : '&' ∉ w) : Text.cut? "&quot;\x7d".toList (w ++ r.text s) =
      (Text.cut? "&quot;\x7d".toList s).map fun (body, rest) => (w ++ r.text body, r.text rest) := by
    have hsep := hr.fixes (s := "&quot;\x7d".toList) (by decide)
    rw [cut?_append_of_not_mem rfl hw, cut?_text_of_fixes (by decide) hsep, Option.map_map]
    rfl
  intro s
  cases s with
  | nil => rfl
  | cons c cs =>
    -- the first character of what is written for `c` is the first one of the body
    obtain ⟨d, ds, himage, hd⟩ := r.image_eq_cons c
    have hds : '&' ∉ ds ∧ '\n' ∉ ds ∧ (d = '\n' ↔ c = '\n') := by
      cases hc : isMute c with
      | false =>
        obtain ⟨rfl, rfl⟩ := List.cons.inj (himage.symm.trans (r.image_of_spoken hc))
        exact ⟨List.not_mem_nil, List.not_mem_nil, Iff.rfl⟩
      | true =>
        have hmute (e : Char) (he : e ∈ ds) : isMute e = true := r.isMute_of_mem_image hc (by simp [himage, he])
        refine ⟨fun h => ne_of_isMute (hmute _ h) (by decide) rfl, fun h => ne_of_isMute (hmute _ h) (by decide) rfl, ?_⟩
        exact iff_of_false (ne_of_isMute (hd.trans hc) (by decide)) (ne_of_isMute hc (by decide))
    rw [text_cons, himage, List.cons_append, Directive.readEntityBody, Directive.readEntityBody, hcut ds cs hds.1]
    simp only [hds.2.2]
    split
    · rfl
    · cases Text.cut? "&quot;\x7d".toList cs with
      | none => rfl
      | some q =>
        have hbreak : (ds ++ r.text q.1).contains '\n' = q.1.contains '\n' := by
          rw [← r.contains_text (by decide) q.1, Bool.eq_iff_iff, List.contains_iff_mem, List.contains_iff_mem,
            List.mem_append, or_iff_right hds.2.1]
        simp only [Option.map_some, Option.bind_some, hbreak]
        split
        · rfl
        · rw [Option.map_some, text_cons, himage]
          rfl

theorem reads_readEntityTag : r.Reads Directive.readEntityTag fun (name, body) => (r.text name, r.text body) := by
  intro s
  have hlower (c : Char) (hc : isMute c = true) : decide ('a' ≤ c ∧ c ≤ 'z') = false := by
    rw [decide_eq_false_iff_not]
    rintro ⟨hlow, hhigh⟩
    have hname : Text.isNameChar c = true := by
      simp [Text.isNameChar, Text.isNameStart, Text.isLetter, hlow, hhigh]
    rw [isNameChar_of_isMute hc] at hname
    cases hname
  simp only [Directive.readEntityTag, Option.bind_eq_bind, Option.pure_def, hr.after? "\x7b".toList (by decide)]
  cases Text.after? "\x7b".toList s with
  | none => rfl
  | some s =>
    simp only [Option.map_some, Option.bind_some, (r.span_text hlower s).1, (r.span_text hlower s).2, r.text_eq_nil_iff,
      hr.after? "=&quot;".toList (by decide)]
    split
    · rfl
    · cases Text.after? "=&quot;".toList (s.dropWhile fun c => decide ('a' ≤ c ∧ c ≤ 'z')) with
      | none => rfl
      | some s =>
        simp only [Option.map_some, Option.bind_some, hr.reads_readEntityBody s]
        cases Directive.readEntityBody s <;> rfl

theorem reads_readVariable : r.Reads Directive.readVariable r.text := by
  have hbrace (c : Char) : ∀ d ∈ r.image c, (!(d == '\x7b' || d == '\x7d')) = !(c == '\x7b' || c == '\x7d') := by
    intro d hd
    cases hc : isBrace c with
    | true =>
      rw [hr.brace c hc] at hd
      rw [List.mem_singleton.1 hd]
    | false => exact congrArg not ((hr.other c hc d hd).trans hc.symm)
  intro s
  rw [Directive.readVariable_eq, hr.after? _ (by decide), Directive.readVariable_eq]
  cases Text.after? "\x7b".toList s with
  | none => rfl
  | some s =>
    have hspan := r.span_text_of_image hbrace s
    simp only [Option.map_some, Option.bind_some, hspan.1, hspan.2, hr.after? "\x7d".toList (by decide),
      r.startsVariable_text]
    cases Text.after? "\x7d".toList (s.dropWhile fun c => !(c == '\x7b' || c == '\x7d')) with
    | none => rfl
    | some rest =>
      simp only [Option.map_some, Option.bind_some]
      split <;> rfl

theorem reads_readConstant : r.Reads Directive.readConstant r.text := by
  intro s
  have hname (c : Char) : isMute c = true → Text.isNameChar c = false := isNameChar_of_isMute
  simp only [Directive.readConstant, Option.bind_eq_bind, hr.after? "\x7b#".toList (by decide)]
  cases Text.after? "\x7b#".toList s with
  | none => rfl
  | some s =>
    simp only [Option.map_some, Option.bind_some, (r.span_text hname s).1, (r.span_text hname s).2,
      hr.after? "#\x7d".toList (by decide), hr.after? "\x7d".toList (by decide),
      r.head?_any_text fun _ => isNameStart_of_isMute]
    rw [← Option.map_or]
    cases (Text.after? "#\x7d".toList (s.dropWhile Text.isNameChar)).or
        (Text.after? "\x7d".toList (s.dropWhile Text.isNameChar)) with
    | none => rfl
    | some rest =>
      simp only [Option.map_some, Option.bind_some]
      split <;> rfl

/-! ### Loop tags -/

theorem reads_readBindings : r.Reads Directive.readBindings fun (key, value) => (r.text key, value.map r.text) := by
  intro s
  rw [Directive.readBindings_eq, hr.after? _ (by decide), Directive.readBindings_eq]
  cases Text.after? " as ".toList s with
  | none => rfl
  | some s =>
    have hcut := cut?_text_of_fixes (by decide) (hr.fixes (s := "\x7d".toList) (by decide)) s
    simp only [Option.map_some, Option.bind_some, hcut]
    cases Text.cut? "\x7d".toList s with
    | none => rfl
    | some q =>
      simp only [Option.map_some, Option.bind_some, r.bindingTexts_text]
      cases Directive.bindingTexts q.1 <;> rfl

theorem reads_readLoopEnd :
    r.Reads Directive.readLoopEnd (Option.map fun (key, value) => (r.text key, value.map r.text)) := by
  refine .or (fun s => ?_) fun s => ?_
  · simp only [hr.reads_readBindings s, Option.map_map]
    rfl
  · simp only [hr.after? "\x7d".toList (by decide), Option.map_map]
    rfl

theorem reads_readLoop : r.Reads Directive.readLoop r.loopTag := by
  rw [funext Directive.readLoop_eq]
  refine .or (fun s => ?opening) fun s => ?closing
  case opening =>
    simp only [hr.after? "\x7bloop=\x22".toList (by decide)]
    cases Text.after? "\x7bloop=\x22".toList s with
    | none => rfl
    | some s =>
      have hspan := r.span_text (fun c hc => bne_iff_ne.2 (ne_of_isMute hc (d := '\x22') (isMute_of_isTagChar rfl))) s
      simp only [Option.map_some, Option.bind_some, hspan.1, hspan.2, hr.after? "\x22".toList (by decide)]
      cases Text.after? "\x22".toList (s.dropWhile (· != '\x22')) with
      | none => rfl
      | some s =>
        simp only [Option.map_some, Option.bind_some, hr.reads_readLoopEnd s, Option.map_map]
        cases Directive.readLoopEnd s with
        | none => rfl
        | some q => obtain ⟨_ | names, rest⟩ := q <;> rfl
  case closing =>
    simp only [hr.after? "\x7b/loop\x7d".toList (by decide), Option.map_map]
    rfl

end Framed
end Recoding

/-! ## Passes -/

/-- A progress with the bodies on the shelf recoded. -/
def Progress.recoded (r : Recoding) (p : Progress) : Progress := { p with shelf := p.shelf.map r.text }

namespace Translator

variable {r : Recoding} {t : Translator}

/-- A pass that makes of a recoded tag what it makes of the tag, recoded. -/
def Pass.Recodes (r : Recoding) (x : Pass) : Prop :=
  ∀ p s, x.find (p.recoded r) (r.text s) =
    (x.find p s).map fun (out, p', rest) => (r.text out, p'.recoded r, r.text rest)

namespace Pass.Recodes

/-- A pass over a recoded text leaves the recoded text. -/
theorem run {x : Pass} (h : x.Recodes r) (hr : r.Framed) (p : Progress) (s : Chars) :
    x.run (p.recoded r) (r.text s) = (r.text (x.run p s).1, (x.run p s).2.recoded r) := by
  have hlength {p p' : Progress} {s out rest : Chars} (hf : x.find p s = some (out, p', rest)) :
      rest.length < s.length := by
    obtain ⟨a, hread, -, -⟩ := find_eq_some hf
    obtain ⟨used, rfl⟩ := x.tag.ends hread
    rw [List.length_append, List.length_cons]
    omega
  induction hn : s.length using Nat.strongRecOn generalizing p s with
  | ind n ih =>
    cases hf : x.find p s with
    | some q =>
      obtain ⟨out, p', rest⟩ := q
      have hread := h p s
      rw [hf, Option.map_some] at hread
      have hlen := hlength hf
      have hrest := ih rest.length (by omega) p' rest rfl
      have htag : x.run p s = (out ++ (x.run p' rest).1, (x.run p' rest).2) := Text.substituteFrom_of_some hf hlen
      rw [Pass.run, Text.substituteFrom_of_some hread (hlength hread), ← Pass.run, hrest, htag, Recoding.text_append]
    | none =>
      cases s with
      | nil => rw [Recoding.text_nil, run_nil, run_nil, Recoding.text_nil]
      | cons c cs =>
        rw [List.length_cons] at hn
        have hcs := ih cs.length (by omega) p cs rfl
        have hcopy : x.run p (c :: cs) = (c :: (x.run p cs).1, (x.run p cs).2) := Text.substituteFrom_cons_of_none hf
        have hbrace := hr.fixes (s := ['\x7b']) (by decide) '\x7b' List.mem_cons_self
        rw [hcopy, Recoding.text_cons, Recoding.text_cons]
        by_cases hc : c = '\x7b'
        · have hread := h p (c :: cs)
          rw [hf, Recoding.text_cons, hc, hbrace.image, List.singleton_append] at hread
          rw [hc, hbrace.image, List.singleton_append, Pass.run, Text.substituteFrom_cons_of_none hread, ← Pass.run, hcs]
          rfl
        · -- no tag starts in what is written for another character
          rw [x.run_append_of_none _ fun v hv hsuffix => ?_, hcs]
          obtain ⟨d, ds, rfl⟩ := List.exists_cons_of_ne_nil hv
          refine x.tag.none_of_head (fun hd => hc (hbrace.only c (hd ▸ hsuffix.mem List.mem_cons_self))) _

/-- So do passes one after the other. -/
theorem runAll {xs : List Pass} (h : ∀ x ∈ xs, x.Recodes r) (hr : r.Framed) (p : Progress) (s : Chars) :
    Pass.runAll xs (p.recoded r) (r.text s) = (r.text (Pass.runAll xs p s).1, (Pass.runAll xs p s).2.recoded r) := by
  induction xs generalizing p s with
  | nil => rfl
  | cons x xs ih =>
    rw [Pass.runAll, (h x List.mem_cons_self).run hr]
    exact ih (fun y hy => h y (List.mem_cons_of_mem x hy)) _ _

theorem plain {α : Type} {read : Chars → Option (α × Chars)} {make : α → Chars}
    (tag : Directive.Tag read) (recode : α → α) (hread : r.Reads read recode)
    (hmake : ∀ a, make (recode a) = r.text (make a)) :
    (Pass.plain tag make).Recodes r := by
  intro p s
  simp only [find, Pass.plain, hread s, Option.map_map, Function.comp_def, hmake]

end Pass.Recodes

/-! ## The passes of a translator -/

theorem decodeEntities_text (r : Recoding) (s : Chars) : decodeEntities (r.text s) = r.text (decodeEntities s) := by
  simp only [decodeEntities, List.foldl_cons, List.foldl_nil]
  simp (disch := decide +kernel) only [r.replace_text]

theorem recodes_entities (hr : r.Framed) : entityPass.Recodes r := by
  refine .plain _ _ hr.reads_readEntityTag fun (name, body) => ?_
  have hbrace : r.image '\x7b' = ['\x7b'] := hr.brace _ rfl
  have hmiddle : r.text "=\x22".toList = "=\x22".toList := hr.text_eq (by decide)
  have hlast : r.text "\x22\x7d".toList = "\x22\x7d".toList := hr.text_eq (by decide)
  simp only [Recoding.text_append, Recoding.text_cons, hbrace, hmiddle, hlast, decodeEntities_text]
  rfl

/-! ### Blocks -/

/-- A recoding that keeps the two characters of placeholders. -/
structure KeepsShields (r : Recoding) : Prop where
  opening : r.image Shelf.opening = [Shelf.opening]
  closing : r.image Shelf.closing = [Shelf.closing]

theorem occurrences_text (r : Recoding) (s : Chars) : Text.occurrences '\n' (r.text s) = Text.occurrences '\n' s := by
  unfold Text.occurrences
  induction s with
  | nil => rfl
  | cons c cs ih =>
    rw [Recoding.text_cons, List.count_append, ih, List.count_cons, Nat.add_comm]
    congr 1
    cases hc : isMute c with
    | false => simp [r.image_of_spoken hc, List.count_singleton]
    | true =>
      have hnone : '\n' ∉ r.image c := fun h => ne_of_isMute (r.isMute_of_mem_image hc h) (by decide) rfl
      simp [List.count_eq_zero.2 hnone, ne_of_isMute hc (d := '\n') (by decide)]

theorem KeepsShields.placeholder (h : KeepsShields r) (n : Nat) (body : Chars) :
    r.text (Shelf.placeholder n body) = Shelf.placeholder n (r.text body) := by
  have hdigits : IsSpoken (Text.ofNat n) := fun c hc =>
    isMute_of_isNameChar (by simp [Text.isNameChar, Shelf.isDigit_of_mem_ofNat hc])
  have hbreaks (k : Nat) : IsSpoken (List.replicate k '\n') := fun c hc => List.eq_of_mem_replicate hc ▸ by decide
  simp only [Shelf.placeholder, Recoding.text_append, Recoding.text_cons, Recoding.text_nil, h.opening, h.closing,
    r.text_of_isSpoken hdigits, r.text_of_isSpoken (hbreaks _), occurrences_text]
  rfl

theorem recodes_block (hr : r.Framed) (hshields : KeepsShields r) (k : BlockKind) : (k.pass t).Recodes r := by
  have hread : r.Reads k.read r.text := by cases k <;> exact hr.reads_readBlock (by decide) (by decide) (by decide)
  intro p s
  rw [BlockKind.find_pass, hread s, BlockKind.find_pass, Option.map_map, Option.map_map]
  congr 1
  funext q
  simp [Progress.recoded, Progress.shelving, k.output_text hr, hshields.placeholder]

/-! ### Passes over tags -/

theorem recodes_loops (hr : r.Framed) : (Pass.loops t).Recodes r := by
  intro p s
  simp only [Pass.find, Pass.loops, hr.reads_readLoop s, Option.map_map]
  congr 1
  funext q
  obtain ⟨mark, rest⟩ := q
  cases mark with
  | closing =>
    have hend : r.text (Dialect.tag "endfor".toList) = Dialect.tag "endfor".toList := hr.text_eq (by decide)
    simp only [Function.comp_apply, Recoding.loopTag, hend]
    rfl
  | opening header =>
    simp only [Function.comp_apply, Recoding.loopTag, Progress.recoded, r.emitLoop_text hr]

theorem recodes_fixed (hr : r.Framed) {legacy statement : String} (hlegacy : legacy.toList.all isTagChar = true)
    (hstatement : statement.toList.all isTagChar = true) : (Pass.fixed legacy statement).Recodes r := by
  have hlead : ∀ c ∈ '\x7b' :: legacy.toList ++ ['\x7d'], r.Fixes c := by
    have hbraces := hr.fixes (s := ['\x7b', '\x7d']) (by decide)
    intro c hc
    rw [List.cons_append, List.mem_cons, List.mem_append, List.mem_singleton] at hc
    rcases hc with rfl | hc | rfl
    · exact hbraces _ (by simp)
    · exact Recoding.fixes_of_spoken (isSpoken_of_tagChars hlegacy c hc)
    · exact hbraces _ (by simp)
  refine .plain _ id (fun s => ?_) fun _ => ?_
  · rw [Recoding.after?_text_of_fixes hlead, Option.map_map, Option.map_map]
    rfl
  · rw [hr.tag, r.text_of_isSpoken (isSpoken_of_tagChars hstatement)]

/-- Every pass of a translator recodes, if the extension that it writes has nothing to recode. -/
theorem recodes_passes (hr : r.Framed) (hshields : KeepsShields r) (hext : r.text t.extension = t.extension) :
    ∀ x ∈ Stage.pipeline.flatMap t.passes, x.Recodes r := by
  have hlate : t.latePasses = [.plain Directive.tag_readInclude t.emitInclude, .loops t, .fixed "break" "break",
      .fixed "continue" "continue", .plain Directive.tag_readIf emitIf, .plain Directive.tag_readElseif t.emitElseif,
      .fixed "else" "else", .fixed "/if" "endif", .plain Directive.tag_readVariable t.emitVariable,
      .plain Directive.tag_readFunction t.emitFunction, .plain Directive.tag_readConstant emitConstant] := rfl
  rw [pipeline_eq_cons, hlate]
  simp only [blockKinds, List.map_cons, List.map_nil, List.cons_append, List.nil_append, List.forall_mem_cons,
    List.not_mem_nil, false_implies, implies_true, and_true]
  exact ⟨recodes_entities hr, recodes_block hr hshields _, recodes_block hr hshields _, recodes_block hr hshields _,
    .plain _ _ (hr.reads_readArgument (by decide)).filter (r.emitInclude_text hr hext), recodes_loops hr,
    recodes_fixed hr (by decide) (by decide), recodes_fixed hr (by decide) (by decide),
    .plain _ _ ((hr.reads_readArgument (by decide)).or (hr.reads_readArgument (by decide))) (r.emitIf_text hr),
    .plain _ _ (hr.reads_readArgument (by decide)) (r.emitElseif_text hr t), recodes_fixed hr (by decide) (by decide),
    recodes_fixed hr (by decide) (by decide), .plain _ _ hr.reads_readVariable (r.emitVariable_text hr t),
    .plain _ _ (hr.reads_readArgument (by decide)).filter (r.emitFunction_text hr t),
    .plain _ _ hr.reads_readConstant (r.emitConstant_text hr)⟩

end Translator
end ViewBridge
