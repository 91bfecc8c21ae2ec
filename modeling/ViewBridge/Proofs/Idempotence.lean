import ViewBridge.Proofs.Fixpoint
import ViewBridge.Proofs.Item.Translation
/-!
# Translating twice

A translation is left alone by a second one exactly when no pass reads anything in it. Comments do not have to
be: their bodies are copied, and no pass knows a comment of the target, so a tag in the body of a comment is
translated the second time. Where no comment has a tag in it, the translation of a template of items is silent.

Results:
* `Silent.escape`, `readsNothing_of_silent`: no pass reads silent text.
* `silent_translateItems`: the translation of items whose comments have no tags.
* `translate_translate`: when translating twice is translating once.
-/
namespace ViewBridge.Translator

/-! ## Silent texts are their own translations -/

/-- Silent text with its literal shields as pairs is silent. -/
theorem Silent.escape {s : Chars} (h : Silent s) : Silent (Shelf.escape s) := by
  intro v hv hsuffix t
  obtain ⟨c, r, rfl⟩ := List.exists_cons_of_ne_nil hv
  by_cases hc : c = '\x7b'
  · subst hc
    obtain ⟨u, hu⟩ := hsuffix
    obtain ⟨s₁, s₂, rfl, -, rfl⟩ := escape_eq_append_cons (by decide) (by decide) hu.symm
    have hstart := h ('\x7b' :: s₂) (List.cons_ne_nil _ _) (List.suffix_append _ _)
    have hshield (w : Chars) : startsTag ('\x7b' :: Shelf.opening :: w) = false := rfl
    -- a tag shows in the two characters behind its brace
    match s₂ with
    | [] =>
      rw [Shelf.escape_nil]
      exact hstart t
    | [d] =>
      rw [Shelf.escape_cons, Shelf.escape_nil]
      split
      · exact hshield _
      · exact hstart t
    | d :: e :: w =>
      rw [Shelf.escape_cons]
      split
      · exact hshield _
      · rw [Shelf.escape_cons]
        split
        · rename_i he
          rw [he] at hstart
          exact hstart []
        · exact hstart []
  · exact startsTag_cons_of_ne hc (r ++ t)

theorem readsNothing_of_silent {s : Chars} (h : Silent s) (t : Translator) : ReadsNothing t s := by
  intro x hx v hsuffix
  by_cases hv : v = []
  · rw [hv, x.tag.nil]
  · have hcopies := h.escape.copies hx v hv hsuffix []
    rwa [List.append_nil] at hcopies

/-! ## Silent items -/

/-- The items without verbatim text and without tags in comments or ignored text. -/
def Item.Inert : Item → Prop
  | .block .verbatim _ => False
  | .block _ body => Tagless body
  | _ => True

instance (i : Item) : Decidable i.Inert :=
  match i with
  | .block .verbatim _ => isFalse id
  | .block .comment body | .block .ignored body => inferInstanceAs (Decidable (Tagless body))
  | .text _ | .var _ | .argument .. | .fixed _ | .loop .. | .endLoop | .constant _ => isTrue trivial

/-- A comment is silent if no tag starts in its body. -/
theorem silent_comment {body : Chars} (h : Tagless body) : Silent (Dialect.comment body) := by
  have hbody : Silent (body ++ " #\x7d".toList) := .append_cons rfl h (.of_not_mem (by decide))
  rw [Dialect.comment, List.append_assoc]
  exact .cons (w := "# ".toList ++ _) (fun _ => rfl) (.append (.of_not_mem (by decide)) hbody)

theorem Item.silent_output_of_inert {t : Translator} (hext : Tagless t.extension) {i : Item} (h : i.WellFormed)
    (hinert : i.Inert) (depth : Int) : Silent (i.output t depth) := by
  cases i with
  | block k body =>
    cases k with
    | comment => exact silent_comment hinert
    | ignored => exact silent_comment hinert
    | verbatim => exact hinert.elim
  | _ => exact silent_output hext h (fun k body => nofun) depth

/-- The translation of items whose comments have no tags is silent. -/
theorem silent_translateItems {t : Translator} (hext : Tagless t.extension) {items : List Item}
    (h : ∀ i ∈ items, i.WellFormed ∧ i.Inert) (depth : Int) : Silent (translateItems t depth items) := by
  induction items generalizing depth with
  | nil => exact .of_not_mem List.not_mem_nil
  | cons i is ih =>
    rw [List.forall_mem_cons] at h
    exact (i.silent_output_of_inert hext h.1.1 h.1.2 _).append (ih h.2 _)

/-! ## Translating twice -/

/-- Translating twice is translating once exactly when no pass reads anything in the translation; for a template
of items that is so if it has no verbatim text and no tags in its comments. -/
theorem translate_translate (t : Translator) :
    (∀ source, t.translate (t.translate source) = t.translate source ↔ ReadsNothing t (t.translate source)) ∧
      (Tagless t.extension → Shelf.opening ∉ t.extension → ∀ items : List Item,
        (∀ i ∈ items, i.WellFormed ∧ i.Inert) →
        t.translate (t.translate (items.flatMap Item.source)) = t.translate (items.flatMap Item.source)) := by
  refine ⟨fun source => t.translate_eq_self_iff _, fun hext hshield items h => ?_⟩
  obtain ⟨shelf, js, hparked, htranslate⟩ := exists_translate_eq hext fun i hi => (h i hi).1
  rw [htranslate, restore_items hshield hparked]
  exact (t.translate_eq_self_iff _).2 (readsNothing_of_silent (silent_translateItems hext h 0) t)

/-- A loop with a comment in it that has braces, but no tag. -/
theorem translate_translate_loop :
    let t : Translator := ⟨.minijinja, "html".toList⟩
    let items : List Item :=
      [.loop "$rows".toList (.single "row".toList), .block .comment " \x7b $row \x7d ".toList,
        .var "$row->name|upper".toList, .endLoop]
    (∀ i ∈ items, i.WellFormed ∧ i.Inert) ∧
      t.translate (t.translate (items.flatMap Item.source)) = t.translate (items.flatMap Item.source) := by
  intro t items
  have hitems : ∀ i ∈ items, i.WellFormed ∧ i.Inert := by decide +kernel
  exact ⟨hitems, (translate_translate t).2 (by decide) (by decide) items hitems⟩

/-- A tag in a comment is copied the first time and read the second time. -/
theorem translate_translate_ne_of_comment :
    let t : Translator := ⟨.twig, "html".toList⟩
    t.translate (t.translate "\x7b* \x7b$x\x7d *\x7d".toList) ≠ t.translate "\x7b* \x7b$x\x7d *\x7d".toList := by
  decide +kernel

end ViewBridge.Translator
