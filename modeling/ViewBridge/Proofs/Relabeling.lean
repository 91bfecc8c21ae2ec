import ViewBridge.Proofs.Break.Tidy
import ViewBridge.Proofs.Recoding.Pass
/-!
# Literal shield characters

The two characters of placeholders are ordinary text where a template has them. To tell, they are replaced by two other
private-use characters that the template does not use: its translation is the one of the relabeled template, with the
two put back. The relabeled template has no literal shield character, so in every stage each one in the text belongs to
a whole placeholder; and the template itself, escaped, is a recoding of the relabeled one.

Blocks must not hold other blocks: the body of the inner one would not be put back.

Results:
* `isMute_of_isPrivateUse`: no reader asks for a private-use character.
* `Whole.restore_recoded`: what the shelf gives back to a recoded text.
* `translateThrough_relabeled`: the translation of a relabeled template.
-/
namespace ViewBridge

/-! ## Private-use characters -/

namespace Text

/-- The private-use characters (general category Co). -/
def privateUseTable : List (Nat × Nat) := [(0xE000, 0xF8FF), (0xF0000, 0xFFFFD), (0x100000, 0x10FFFD)]

/-- Whether a character is one for private use. -/
def isPrivateUse (c : Char) : Bool := inRanges privateUseTable c.toNat

end Text

theorem isMute_of_isPrivateUse {c : Char} (h : Text.isPrivateUse c = true) : isMute c = true := by
  have hrange : 0xE000 ≤ c.toNat ∧ (c.toNat ≤ 0xF8FF ∨ 0xF0000 ≤ c.toNat) := by
    simp only [Text.isPrivateUse, Text.inRanges, Text.privateUseTable, List.any_cons, List.any_nil, Bool.or_false,
      Bool.or_eq_true, Bool.and_eq_true, decide_eq_true_eq] at h
    omega
  have hascii (d : Char) (hd : d.toNat < 128) : ¬ c ≤ d := by
    rw [Char.le_def, UInt32.le_iff_toNat_le]
    exact fun hle => absurd (Nat.le_trans hrange.1 (Nat.le_trans hle (Nat.le_of_lt hd))) (by decide)
  have hspoken : c ∉ spoken := fun hm =>
    have hall : (spoken.all fun d => d.toNat < 128) = true := by decide
    hascii c (of_decide_eq_true (List.all_eq_true.1 hall c hm)) (Char.le_refl c)
  have hname : Text.isNameChar c = false := by
    have hne : c ≠ '_' := by rintro rfl; exact hascii '_' (by decide) (Char.le_refl _)
    simp [Text.isNameChar, Text.isNameStart, Text.isLetter, Text.isDigit, hne, hascii 'z' (by decide),
      hascii 'Z' (by decide), hascii '9' (by decide)]
  have hblank : Text.isBlank c = false := by
    rw [Bool.eq_false_iff]
    simp only [Text.isBlank, ne_eq, Bool.or_eq_true, Bool.and_eq_true, decide_eq_true_eq, beq_iff_eq]
    omega
  refine isMute_eq_true_iff.2 ⟨hspoken, hname, hblank, ?_, ?_⟩
  · rw [Text.isWordChar, if_neg (by omega)]
    exact Text.inRanges_of_disjoint (by decide +kernel) h
  · rw [Text.isAnyDigit, if_neg (by omega)]
    exact Text.inRanges_of_disjoint (by decide +kernel) h

namespace Shelf

/-! ## Texts of whole placeholders -/

/-- A text in which each shield character belongs to the whole placeholder of a body on the shelf. -/
inductive Whole (shelf : List Chars) : Chars → Prop
  | nil : Whole shelf []
  | cons {c : Char} {s : Chars} (hopening : c ≠ opening) (hclosing : c ≠ closing) (h : Whole shelf s) : Whole shelf (c :: s)
  | body {n : Nat} {made s : Chars} (hmade : shelf[n]? = some made) (h : Whole shelf s) :
      Whole shelf (placeholder n made ++ s)

/-- A text has no shield character. -/
def Unshielded (s : Chars) : Prop := opening ∉ s ∧ closing ∉ s

instance (s : Chars) : Decidable (Unshielded s) := inferInstanceAs (Decidable (_ ∧ _))

/-- No body on the shelf holds the placeholder of a body on it. -/
def Flat (shelf : List Chars) : Prop := ∀ body ∈ shelf, ∀ made ∈ shelf.zipIdx, ¬ placeholder made.2 made.1 <:+: body

instance (shelf : List Chars) : Decidable (Flat shelf) :=
  inferInstanceAs (Decidable (∀ body ∈ shelf, ∀ made ∈ shelf.zipIdx, ¬ placeholder made.2 made.1 <:+: body))

variable {shelf : List Chars} {s t : Chars}

theorem Ended.head_ne {c : Char} (h : Ended (c :: s)) : c ≠ closing := by
  rintro rfl
  obtain ⟨u, w, hnil, -⟩ := h [] s rfl
  simp at hnil

theorem not_ended_pair (s : Chars) : ¬ Ended (opening :: closing :: s) := by
  intro h
  obtain ⟨u, w, hu, hne, hw⟩ := h [opening] s rfl
  have hlast : opening ∈ w := by
    have := congrArg List.getLast? hu
    rw [List.getLast?_append_of_ne_nil _ (List.cons_ne_nil opening w)] at this
    obtain ⟨v, d, rfl⟩ := List.eq_nil_or_concat' w |>.resolve_left hne
    rw [← List.cons_append, List.getLast?_concat] at this
    simp [← Option.some.inj this]
  exact absurd (hw _ hlast) (by decide)

theorem restore_nil : restore shelf [] = [] := by
  rw [restore, Text.substitute_nil, unescape_nil]

theorem restore_cons {c : Char} (hc : c ≠ opening) : restore shelf (c :: s) = c :: restore shelf s := by
  have hescape : escape [c] = [c] := escape_eq_self (by simpa using hc.symm)
  simpa [hescape] using restore_escape_append shelf [c] s

/-- Sound and ended texts have no shield characters besides their placeholders. -/
theorem Sound.whole (h : Sound shelf s) (hs : Ended s) : Whole shelf s := by
  induction h with
  | nil => exact .nil
  | @cons c s hc _ ih => exact .cons hc hs.head_ne (ih (hs.right (s := [c]) (hangs_of_not_mem (by simpa using hc.symm))))
  | word hw _ ih =>
    cases hw with
    | pair => exact absurd hs (not_ended_pair _)
    | @body n made hmade => exact .body hmade (ih (hs.right (hangs_concat _ _ (by decide))))

namespace Whole

/-- Without placeholders nothing is left of the shield characters. -/
theorem unshielded (h : Whole shelf s) (hflat : ∀ n made, shelf[n]? = some made → ¬ placeholder n made <:+: s) :
    Unshielded s := by
  induction h with
  | nil => exact ⟨List.not_mem_nil, List.not_mem_nil⟩
  | cons hopening hclosing _ ih =>
    have hs := ih fun n made hmade hstands => hflat n made hmade (hstands.trans (List.suffix_cons _ _).isInfix)
    exact ⟨List.not_mem_cons_of_ne_of_not_mem hopening.symm hs.1, List.not_mem_cons_of_ne_of_not_mem hclosing.symm hs.2⟩
  | @body n made s hmade _ _ => exact absurd (List.prefix_append _ s).isInfix (hflat n made hmade)

/-- What the shelf gives back has no shield characters, if its bodies have none. -/
theorem unshielded_restore (h : Whole shelf s) (hshelf : ∀ made ∈ shelf, Unshielded made) :
    Unshielded (restore shelf s) := by
  induction h with
  | nil => rw [restore_nil]; exact ⟨List.not_mem_nil, List.not_mem_nil⟩
  | cons hopening hclosing _ ih =>
    rw [restore_cons hopening]
    exact ⟨List.not_mem_cons_of_ne_of_not_mem hopening.symm ih.1, List.not_mem_cons_of_ne_of_not_mem hclosing.symm ih.2⟩
  | @body n made s hmade _ ih =>
    have hclear := hshelf made (List.mem_of_getElem? hmade)
    rw [restore_placeholder_append (by rw [hmade, escape_eq_self hclear.1])]
    simpa [Unshielded] using ⟨⟨hclear.1, ih.1⟩, hclear.2, ih.2⟩

end Whole

theorem Flat.unshielded (h : Flat shelf) {body : Chars} (hbody : body ∈ shelf) (hwhole : Whole shelf body) :
    Unshielded body :=
  hwhole.unshielded fun n made hmade => h body hbody (made, n) (List.mem_zipIdx_iff_getElem?.2 hmade)

theorem Flat.mono {shelf' : List Chars} (h : Flat shelf') (hgrows : shelf <+: shelf') : Flat shelf := by
  obtain ⟨more, rfl⟩ := hgrows
  intro body hbody made hmade
  refine h body (List.mem_append_left _ hbody) made ?_
  rw [List.zipIdx_append]
  exact List.mem_append_left _ hmade

end Shelf

/-! ## Relabelings -/

/-- Two private-use characters to write for those of placeholders. -/
structure Relabeling where
  opening : Char
  closing : Char
  private_opening : Text.isPrivateUse opening = true
  private_closing : Text.isPrivateUse closing = true
  distinct : opening ≠ closing
  opening_not_mem : opening ∉ [Shelf.opening, Shelf.closing]
  closing_not_mem : closing ∉ [Shelf.opening, Shelf.closing]

namespace Relabeling

variable (l : Relabeling)

/-- What is written for a character. -/
def char (c : Char) : Char := if c = Shelf.opening then l.opening else if c = Shelf.closing then l.closing else c

/-- A text with other characters for the two of placeholders. -/
def text (s : Chars) : Chars := s.map l.char

/-- What a character was written for. -/
def source (c : Char) : Char := if c = l.opening then Shelf.opening else if c = l.closing then Shelf.closing else c

/-- A text has neither of the two new characters. -/
def Unused (s : Chars) : Prop := l.opening ∉ s ∧ l.closing ∉ s

instance (s : Chars) : Decidable (l.Unused s) := inferInstanceAs (Decidable (_ ∧ _))

variable {l} {s : Chars}

theorem source_char {c : Char} (hopening : c ≠ l.opening) (hclosing : c ≠ l.closing) : l.source (l.char c) = c := by
  have := l.distinct.symm
  unfold char source
  split
  · simp_all
  · split <;> simp_all

theorem char_source {c : Char} (hopening : c ≠ Shelf.opening) (hclosing : c ≠ Shelf.closing) : l.char (l.source c) = c := by
  unfold char source
  split
  · simp_all
  · split
    · simp_all [show Shelf.closing ≠ Shelf.opening by decide]
    · simp_all

theorem map_source_text (h : l.Unused s) : (l.text s).map l.source = s := by
  rw [text, List.map_map, List.map_congr_left (g := id) fun c hc => ?_, List.map_id]
  exact source_char (fun heq => h.1 (heq ▸ hc)) fun heq => h.2 (heq ▸ hc)

theorem text_map_source (h : Shelf.Unshielded s) : l.text (s.map l.source) = s := by
  rw [text, List.map_map, List.map_congr_left (g := id) fun c hc => ?_, List.map_id]
  exact char_source (fun heq => h.1 (heq ▸ hc)) fun heq => h.2 (heq ▸ hc)

theorem unshielded_text (s : Chars) : Shelf.Unshielded (l.text s) := by
  have hopening := l.opening_not_mem
  have hclosing := l.closing_not_mem
  have hchar (c : Char) : Shelf.opening ≠ l.char c ∧ Shelf.closing ≠ l.char c := by
    unfold char
    split
    · simp_all [eq_comm]
    · split <;> simp_all [eq_comm]
  constructor
  · intro hm
    obtain ⟨c, -, hc⟩ := List.mem_map.1 hm
    exact (hchar c).1 hc.symm
  · intro hm
    obtain ⟨c, -, hc⟩ := List.mem_map.1 hm
    exact (hchar c).2 hc.symm

/-! ### The template as a recoding of the relabeled one -/

theorem isMute_char_source {c : Char} (hc : c = l.opening ∨ c = l.closing) :
    isMute c = true ∧ isMute (l.source c) = true := by
  have hclosing : l.closing ≠ l.opening := l.distinct.symm
  rcases hc with rfl | rfl
  · simp [source, Shelf.isMute_shields.1, isMute_of_isPrivateUse l.private_opening]
  · simp [source, hclosing, Shelf.isMute_shields.2, isMute_of_isPrivateUse l.private_closing]

theorem source_of_ne {c : Char} (hc : ¬ (c = l.opening ∨ c = l.closing)) : l.source c = c := by
  rw [not_or] at hc
  rw [source, if_neg hc.1, if_neg hc.2]

theorem mem_escape_singleton {c d : Char} (hd : d ∈ Shelf.escape [c]) : d = c ∨ d = Shelf.closing := by
  rw [Shelf.escape_cons, Shelf.escape_nil] at hd
  split at hd
  · rename_i hc
    simpa [hc] using hd
  · exact .inl (List.mem_singleton.1 hd)

/-- Literal shield characters, escaped, for the two new characters. -/
def recoding (l : Relabeling) : Recoding where
  image c := if c = l.opening ∨ c = l.closing then Shelf.escape [l.source c] else [c]
  image_cases c := by
    split
    · rename_i hc
      obtain ⟨hmute, hsource⟩ := isMute_char_source hc
      refine .inr ⟨hmute, fun hnil => ?_, fun d hd => ?_⟩
      · rw [Shelf.escape_cons] at hnil
        split at hnil <;> cases hnil
      · rcases mem_escape_singleton hd with rfl | rfl
        · exact hsource
        · exact Shelf.isMute_shields.2
    · exact .inl rfl

theorem image_eq_escape {c : Char} (hc : c ≠ Shelf.opening) : l.recoding.image c = Shelf.escape [l.source c] := by
  change (if _ then _ else _) = _
  split
  · rfl
  · rename_i hne
    rw [source_of_ne hne, Shelf.escape_eq_self (by simpa using hc.symm)]

theorem image_of_ne {c : Char} (hopening : c ≠ l.opening) (hclosing : c ≠ l.closing) : l.recoding.image c = [c] :=
  if_neg (not_or.2 ⟨hopening, hclosing⟩)

theorem recoding_text_eq_self (h : l.Unused s) : l.recoding.text s = s := by
  induction s with
  | nil => rfl
  | cons c s ih =>
    simp only [Unused, List.mem_cons, not_or] at h
    rw [Recoding.text_cons, image_of_ne (Ne.symm h.1.1) (Ne.symm h.2.1), ih ⟨h.1.2, h.2.2⟩]
    rfl

theorem recoding_text (h : Shelf.opening ∉ s) : l.recoding.text s = Shelf.escape (s.map l.source) := by
  induction s with
  | nil => rw [Recoding.text_nil, List.map_nil, Shelf.escape_nil]
  | cons c s ih =>
    rw [List.mem_cons, not_or] at h
    rw [Recoding.text_cons, image_eq_escape (Ne.symm h.1), ih h.2, ← Shelf.escape_append]
    rfl

theorem framed_recoding (l : Relabeling) : l.recoding.Framed where
  brace c hc := by
    have hprivate : Text.isPrivateUse c = false := by
      simp only [Recoding.isBrace, Bool.or_eq_true, beq_iff_eq] at hc
      rcases hc with rfl | rfl <;> decide
    have hne {d : Char} (hd : Text.isPrivateUse d = true) : c ≠ d := by
      rintro rfl
      rw [hprivate] at hd
      cases hd
    exact image_of_ne (hne l.private_opening) (hne l.private_closing)
  other c hc d hd := by
    by_cases hnew : c = l.opening ∨ c = l.closing
    · rw [show l.recoding.image c = Shelf.escape [l.source c] from if_pos hnew] at hd
      have hsource : l.source c = Shelf.opening ∨ l.source c = Shelf.closing := by
        unfold source
        split
        · exact .inl rfl
        · exact .inr (if_pos (hnew.resolve_left ‹_›))
      rcases mem_escape_singleton hd with rfl | rfl
      · rcases hsource with hsource | hsource <;> rw [hsource] <;> decide
      · decide
    · rw [not_or] at hnew
      rw [image_of_ne hnew.1 hnew.2, List.mem_singleton] at hd
      rwa [hd]

theorem keepsShields_recoding (l : Relabeling) : Translator.KeepsShields l.recoding := by
  have hopening := l.opening_not_mem
  have hclosing := l.closing_not_mem
  simp only [List.mem_cons, List.not_mem_nil, or_false, not_or] at hopening hclosing
  exact ⟨image_of_ne (Ne.symm hopening.1) (Ne.symm hclosing.1), image_of_ne (Ne.symm hopening.2) (Ne.symm hclosing.2)⟩

/-- What a recoded shelf gives back to a recoded text. -/
theorem restore_recoding {shelf : List Chars} (h : Shelf.Whole shelf s) (hshelf : ∀ made ∈ shelf, Shelf.Unshielded made) :
    Shelf.restore (shelf.map l.recoding.text) (l.recoding.text s) = (Shelf.restore shelf s).map l.source := by
  induction h with
  | nil => simp [Shelf.restore_nil]
  | cons hopening _ _ ih =>
    rw [Recoding.text_cons, image_eq_escape hopening, Shelf.restore_escape_append, ih, Shelf.restore_cons hopening]
    rfl
  | @body n made s hmade _ ih =>
    have hclear := (hshelf made (List.mem_of_getElem? hmade)).1
    have hbody : (shelf.map l.recoding.text)[n]? = some (Shelf.escape (made.map l.source)) := by
      rw [List.getElem?_map, hmade, Option.map_some, recoding_text hclear]
    rw [Recoding.text_append, l.keepsShields_recoding.placeholder, Shelf.restore_placeholder_append hbody, ih,
      Shelf.restore_placeholder_append (by rw [hmade, Shelf.escape_eq_self hclear]), List.map_append]

end Relabeling

theorem Stage.exists_upTo_append (last : Stage) : ∃ more, Stage.pipeline = last.upTo ++ more := by
  cases last <;> exact ⟨_, rfl⟩

namespace Translator

open ViewBridge.Shelf (Unshielded Flat)

variable {l : Relabeling} {t : Translator} {source : Chars}

/-- What passes leave of an escaped template, and of the relabeled one. -/
theorem runAll_escape (hsource : l.Unused source) (hext : l.Unused t.extension) (xs : List Pass)
    (hxs : ∀ x ∈ xs, x ∈ Stage.pipeline.flatMap t.passes) :
    Pass.runAll xs {} (Shelf.escape source) =
      (l.recoding.text (Pass.runAll xs {} (l.text source)).1,
       (Pass.runAll xs {} (l.text source)).2.recoded l.recoding) := by
  have hrecodes := recodes_passes (t := t) l.framed_recoding l.keepsShields_recoding (l.recoding_text_eq_self hext)
  have htext := l.recoding_text (l.unshielded_text source).1
  rw [l.map_source_text hsource] at htext
  rw [← htext]
  exact Pass.Recodes.runAll (fun x hx => hrecodes x (hxs x hx)) l.framed_recoding {} _

/-- Behind every stage the text of a template without shield characters is tidy, and the shelf is the first part of the
one behind the last stage. -/
theorem tidy_upTo (hsource : Unshielded source) (hext : Unshielded t.extension) (last : Stage) :
    Tidy (Pass.runAll (last.upTo.flatMap t.passes) {} source).2.shelf
        (Pass.runAll (last.upTo.flatMap t.passes) {} source).1 ∧
      (Pass.runAll (last.upTo.flatMap t.passes) {} source).2.shelf <+:
        (Pass.runAll (Stage.pipeline.flatMap t.passes) {} source).2.shelf := by
  obtain ⟨more, hmore⟩ := last.exists_upTo_append
  have htidying := tidying_passes hext.1 hext.2
  rw [hmore, List.flatMap_append, List.forall_mem_append] at htidying
  have htidy : Tidy (Pass.runAll (last.upTo.flatMap t.passes) {} source).2.shelf
      (Pass.runAll (last.upTo.flatMap t.passes) {} source).1 :=
    Pass.Tidying.runAll htidying.1 ⟨.of_not_mem hsource.1, .of_not_mem hsource.2, by simp⟩
  refine ⟨htidy, ?_⟩
  rw [hmore, List.flatMap_append, Pass.runAll_append]
  exact (Pass.Guards.runAll (fun x hx => (htidying.2 x hx).guards) htidy.sound).1

/-- No block holds another one in a template without shield characters if none does in a recoded one. -/
theorem flat_of_map {shelf : List Chars} (h : Flat (shelf.map l.recoding.text)) : Flat shelf := by
  intro body hbody ⟨made, n⟩ hmade hstands
  refine h _ (List.mem_map_of_mem hbody) (l.recoding.text made, n) ?_ ?_
  · rw [List.mem_zipIdx_iff_getElem?] at hmade ⊢
    rw [List.getElem?_map, hmade, Option.map_some]
  · obtain ⟨u, v, rfl⟩ := hstands
    exact ⟨l.recoding.text u, l.recoding.text v, by simp [l.keepsShields_recoding.placeholder]⟩

/-- Literal shield characters are ordinary text: a template in which two other private-use characters stand for them is
translated as the template is, with the two in the same places. The template and the extension do not have the two
characters, the extension has no shield characters, and no block holds another one. -/
theorem translateThrough_relabeled (l : Relabeling) (t : Translator) (last : Stage) (source : Chars)
    (hsource : l.Unused source) (hext : l.Unused t.extension ∧ Unshielded t.extension)
    (hflat : Flat (t.behindBlocks source).2.shelf) :
    t.translateThrough last (l.text source) = l.text (t.translateThrough last source) := by
  have hplain := l.unshielded_text source
  obtain ⟨htidy, hgrows⟩ := tidy_upTo hplain hext.2 last
  have hpasses : ∀ x ∈ last.upTo.flatMap t.passes, x ∈ Stage.pipeline.flatMap t.passes := by
    obtain ⟨more, hmore⟩ := last.exists_upTo_append
    rw [hmore, List.flatMap_append]
    exact fun x => List.mem_append_left _
  -- the bodies on the shelf have no shield characters
  have hbodies : ∀ made ∈ (Pass.runAll (last.upTo.flatMap t.passes) {} (l.text source)).2.shelf, Unshielded made := by
    have hshelf := congrArg (·.2.shelf) (runAll_escape hsource hext.1 (Stage.pipeline.flatMap t.passes) fun _ => id)
    simp only [runAll_pipeline t source, shelf_runAll_latePasses] at hshelf
    rw [hshelf] at hflat
    intro made hmade
    obtain ⟨hsound, hended⟩ := htidy.stocked made hmade
    exact ((flat_of_map hflat).mono hgrows).unshielded hmade (hsound.whole hended)
  have hwhole := htidy.sound.whole htidy.ended
  have hsourceRun := runAll_escape hsource hext.1 _ hpasses
  simp only [translateThrough, runStages_eq, hsourceRun, Shelf.escape_eq_self hplain.1, Progress.recoded]
  rw [l.restore_recoding hwhole hbodies, l.text_map_source (hwhole.unshielded_restore hbodies)]

/-- What looks like a placeholder in a template, in front of a comment, inside of it and in a variable behind it. -/
theorem translateThrough_relabeled_comment :
    let l : Relabeling := ⟨Char.ofNat 0xE002, Char.ofNat 0xE003, by decide, by decide, by decide, by decide, by decide⟩
    let t : Translator := ⟨.twig, "html".toList⟩
    let mark := Shelf.placeholder 0 []
    let source := mark ++ "\x7b*".toList ++ mark ++ "*\x7d\x7b$x.'".toList ++ mark ++ "'\x7d".toList
    l.Unused source ∧ (l.Unused t.extension ∧ Unshielded t.extension) ∧ Flat (t.behindBlocks source).2.shelf ∧
      t.translateThrough .constants (l.text source) = l.text (t.translateThrough .constants source) ∧
      t.translateThrough .constants source =
        mark ++ "\x7b# ".toList ++ mark ++ " #\x7d\x7b\x7b x ~ '".toList ++ mark ++ "'|raw \x7d\x7d".toList := by
  intro l t mark source
  have hsource : l.Unused source := by decide +kernel
  have hext : l.Unused t.extension ∧ Unshielded t.extension := by decide
  have hflat : Flat (t.behindBlocks source).2.shelf := by decide +kernel
  exact ⟨hsource, hext, hflat, translateThrough_relabeled l t .constants source hsource hext hflat, by decide +kernel⟩

end Translator
end ViewBridge
