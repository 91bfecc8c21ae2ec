import ViewBridge.Proofs.Calm
import ViewBridge.Proofs.Item.Translation
import ViewBridge.Proofs.Loop.Basic
/-!
# Translated loops

A name is what all rules leave alone, so variables and loops over them are translated plainly. A loop without
names opens one loop of the target dialect under numbered names and gives them to `value` and `key`.

Results:
* `Expression.translate_name`: a name only loses its sigil.
* `translate_of_no_inclusion`: without includes a template is translated item by item, whatever the extension
  of includes is.
* `translate_loops`: nested loops, translated.
-/
namespace ViewBridge

open Translator (IsIdentifier)

/-! ## Names -/

namespace Expression

variable {name : Chars}

theorem Drops.substitute_eq_self {x : Char} {rule : Rule} (h : Drops x rule) {s : Chars} (hx : x ∉ s) :
    Text.substitute rule s = s := by
  refine Text.substitute_eq_self fun t ht => ?_
  cases hf : rule t with
  | none => rfl
  | some r =>
    obtain ⟨used, hs, hlt⟩ := h (show rule t = some (r.1, r.2) from hf)
    have hmem : x ∈ used := List.count_pos_iff.1 (by omega)
    exact absurd (ht.mem (hs ▸ List.mem_append_left _ hmem)) hx

theorem drops_readNot : Drops '!' readNot := by
  intro s out rest hf
  obtain ⟨rfl, rfl⟩ := readNot_eq_some hf
  exact ⟨['!'], rfl, by decide⟩

theorem substitute_readBareKey_eq_self {s : Chars} (hs : '[' ∉ s) : Text.substitute readBareKey s = s := by
  refine Text.substitute_eq_self fun t ht => Option.eq_none_iff_forall_ne_some.2 fun r hr => ?_
  obtain ⟨name, -, rfl, -⟩ := readBareKey_eq_some (show readBareKey t = some (r.1, r.2) from hr)
  exact hs (ht.mem List.mem_cons_self)

theorem substitute_readLogicWord_eq_self {s : Chars} (hs : ' ' ∉ s) : Text.substitute readLogicWord s = s := by
  have hword {word t : Chars} (ht : t <:+ s) : readWord word t = none := by
    refine Option.eq_none_iff_forall_ne_some.2 fun r hr => ?_
    obtain ⟨-, used, -, rfl⟩ := readWord_eq_some (show readWord word t = some (r.1, r.2) from hr)
    exact hs (ht.mem List.mem_cons_self)
  refine Text.substitute_eq_self fun t ht => ?_
  rw [readLogicWord_eq, hword ht, hword ht]
  rfl

/-- The characters of names are digits or lie between the first and the last letter. -/
theorem toNat_of_isNameChar {c : Char} (h : Text.isNameChar c = true) :
    (48 ≤ c.toNat ∧ c.toNat ≤ 57) ∨ (65 ≤ c.toNat ∧ c.toNat ≤ 122) := by
  simp only [Text.isNameChar, Text.isNameStart, Text.isLetter, Text.isDigit, Bool.or_eq_true, Bool.and_eq_true,
    decide_eq_true_eq, beq_iff_eq, Char.le_def, UInt32.le_iff_toNat_le] at h
  rcases h with ((⟨hlo, hhi⟩ | ⟨hlo, hhi⟩) | rfl) | ⟨hlo, hhi⟩
  · exact .inr ⟨le_trans (by decide) hlo, hhi⟩
  · exact .inr ⟨hlo, le_trans hhi (by decide)⟩
  · exact .inr (by decide)
  · exact .inl ⟨hlo, hhi⟩

theorem isBlank_of_isNameChar {c : Char} (h : Text.isNameChar c = true) : Text.isBlank c = false := by
  have hrange := toNat_of_isNameChar h
  simp only [Text.isBlank, Bool.or_eq_false_iff, Bool.and_eq_false_iff, decide_eq_false_iff_not, beq_eq_false_iff_ne]
  omega

theorem trimWhile_eq_self {p : Char → Bool} {s : Chars} (h : ∀ c ∈ s, p c = false) : Text.trimWhile p s = s := by
  have hdrop {s : Chars} (h : ∀ c ∈ s, p c = false) : s.dropWhile p = s := by
    cases s with
    | nil => rfl
    | cons c s => simp [h c List.mem_cons_self]
  rw [Text.trimWhile, hdrop h, Text.dropEndWhile, hdrop fun c hc => h c (List.mem_reverse.1 hc), List.reverse_reverse]

/-- A word of names with single bars between them loses its sigil and is not changed otherwise. -/
theorem translate_word {w : Chars} (hstart : w.head?.any Text.isNameStart = true)
    (hw : ∀ c ∈ w, Text.isNameChar c = true ∨ c = '|') (hbars : ¬ "||".toList <:+: w) : translate ('$' :: w) = w := by
  have hnot {c : Char} (hc : Text.isNameChar c = false) (hne : c ≠ '|') : c ∉ w := fun hm => by
    rcases hw c hm with h | h
    · rw [hc] at h
      cases h
    · exact hne h
  have hquotes : ∀ c ∈ w, isQuote c = false := fun c hc =>
    (hw c hc).elim (fun h => (isQuote_of_nameChar h).1) fun h => by rw [h]; rfl
  have hquotes' : ∀ c ∈ '$' :: w, isQuote c = false := List.forall_mem_cons.2 ⟨rfl, hquotes⟩
  have hkeys : quoteKeys ('$' :: w) = '$' :: w := by
    rw [quoteKeys, mapUnquoted_eq_self hquotes',
      substitute_readBareKey_eq_self (List.not_mem_cons_of_ne_of_not_mem (by decide) (hnot rfl (by decide)))]
  have hsigil : dropSigils ('$' :: w) = w := by
    rw [dropSigils, if_pos ⟨rfl, hstart⟩, dropSigils_eq, drops_readSigil.substitute_eq_self (hnot rfl (by decide))]
  have harrows : dotArrows w = w := by
    rw [dotArrows, Text.replace_eq_substitute _ (by decide),
      (drops_exchange (x := '>') (by decide)).substitute_eq_self (hnot rfl (by decide))]
  have hjoins : tildeJoins w = w := by
    rw [tildeJoins, Text.replace_eq_substitute _ (by decide),
      (drops_exchange (x := '.') (by decide)).substitute_eq_self (hnot rfl (by decide)),
      drops_readQuoteDot.substitute_eq_self (hnot rfl (by decide)),
      drops_readDotQuote.substitute_eq_self (hnot rfl (by decide))]
  have hnegations : negations w = w := by
    rw [negations, mapUnquoted_eq_self hquotes, spellNot_eq, drops_readNot.substitute_eq_self (hnot rfl (by decide))]
  have hor : Text.substitute (readSpaced "||".toList " or ".toList) w = w := by
    refine Text.substitute_eq_self fun v hv => Option.eq_none_iff_forall_ne_some.2 fun r hr => hbars ?_
    obtain ⟨-, before, behind, -, rfl⟩ :=
      readSpaced_eq_some (show readSpaced "||".toList " or ".toList v = some (r.1, r.2) from hr)
    refine List.IsInfix.trans ?_ hv.isInfix
    rw [List.append_assoc, List.append_assoc]
    exact List.infix_append_of_infix_right List.infix_append_left
  have hlogic : spellLogic w = w := by
    rw [spellLogic, (drops_readSpaced (x := '&') (by decide)).substitute_eq_self (hnot rfl (by decide)), hor,
      substitute_readLogicWord_eq_self (hnot rfl (by decide))]
  have htrim : Text.trimWhile Text.isBlank w = w :=
    trimWhile_eq_self fun c hc => (hw c hc).elim isBlank_of_isNameChar fun h => by rw [h]; rfl
  rw [translate, hkeys, hsigil, harrows, hjoins, hnegations, hlogic, htrim]

/-- A name loses its sigil and is not changed otherwise. -/
theorem translate_name (h : IsIdentifier name) : translate ('$' :: name) = name :=
  translate_word h.1 (fun c hc => .inl (h.2 c hc)) fun hbars => h.not_mem rfl (hbars.mem List.mem_cons_self)

end Expression

namespace Translator

variable {t : Translator} {name : Chars}

theorem isTargetChar_of_isNameChar {c : Char} (h : Text.isNameChar c = true) : Directive.isTargetChar c = true := by
  simp only [Text.isNameChar, Text.isNameStart, Bool.or_eq_true] at h
  simp only [Directive.isTargetChar, Bool.or_eq_true]
  tauto

theorem readAssignment_name (h : IsIdentifier name) : Directive.readAssignment name = none := by
  have hrest : name.dropWhile Directive.isTargetChar = [] :=
    Text.dropWhile_eq_nil fun c hc => isTargetChar_of_isNameChar (h.2 c hc)
  simp [Directive.readAssignment, Directive.readCompound, Directive.readSimple, hrest]

/-- Without a bar there is no filter name. -/
theorem filterNames_eq_self (d : Dialect) {e : Chars} (h : '|' ∉ e) : FilterName.translate d e = e := by
  simpa using FilterName.translate_append (d := d) h []

/-- A name with its sign is a variable tag. -/
theorem wellFormed_var (h : IsIdentifier name) : (Item.var ('$' :: name)).WellFormed := by
  have hnot {c : Char} (hc : Text.isNameChar c = false) (hne : c ≠ '$') : c ∉ '$' :: name :=
    List.not_mem_cons_of_ne_of_not_mem hne (h.not_mem hc)
  exact ⟨Bool.and_eq_true_iff.2 ⟨rfl, h.1⟩, hnot rfl (by decide), hnot rfl (by decide)⟩

theorem emitVariable_name (t : Translator) (h : IsIdentifier name) :
    t.emitVariable ('$' :: name) = t.dialect.rawOutput name := by
  simp only [emitVariable, Expression.translate_name h, readAssignment_name h, filterNames_eq_self _ (h.not_mem rfl)]

theorem readCounting_name (h : IsIdentifier name) : Directive.readCounting ('$' :: name) = none := by
  have hwords : ∀ c ∈ name, Text.isWordChar c = true := by
    intro c hc
    have hrange := Expression.toNat_of_isNameChar (h.2 c hc)
    rw [Text.isWordChar, if_pos (by omega), h.2 c hc]
  have hafter : Text.after? "$".toList ('$' :: name) = some name := rfl
  have hcounter : Directive.readCounter ('$' :: name) = some (name, []) := by
    rw [Directive.readCounter]
    simp only [hafter, Option.bind_eq_bind, Option.bind_some, Text.takeWhile_eq_self hwords,
      Text.dropWhile_eq_nil hwords, if_neg h.ne_nil, List.dropWhile_nil]
  rw [Directive.readCounting, hcounter]
  rfl

theorem operand_name (h : IsIdentifier name) : operand name = name := by
  rcases operand_eq name with ⟨h, -⟩ | ⟨-, c, hc, hblank⟩
  · exact h
  · rcases hblank with hblank | rfl
    · rw [Expression.isBlank_of_isNameChar (h.2 c hc)] at hblank
      cases hblank
    · exact absurd hc (h.not_mem rfl)

/-! ## Templates without includes -/

/-- The late passes make the same of items without includes for every extension. -/
theorem runAll_latePasses_extension {is : List Item}
    (h : ∀ i ∈ is, i.WellFormed ∧ (∀ k, i.body? k = none) ∧ ∀ body, i ≠ .argument .inclusion body)
    (extension : Chars) (p : Progress) :
    Pass.runAll t.latePasses p (is.flatMap Item.source) =
      Pass.runAll { t with extension }.latePasses p (is.flatMap Item.source) := by
  have hcopies (t : Translator) :
      (Pass.plain Directive.tag_readInclude t.emitInclude).run p (is.flatMap Item.source) =
        (is.flatMap Item.source, p) := by
    induction is with
    | nil => exact Pass.run_nil _ p
    | cons i is ih =>
      rw [List.forall_mem_cons] at h
      have hi : (Pass.plain Directive.tag_readInclude t.emitInclude).Copies i.source := by
        obtain ⟨hwell, hblock, hinclude⟩ := h.1
        cases i with
        | text s => exact .of_not_mem hwell.1
        | block k body =>
          have hbody := hblock k
          rw [Item.body?_eq_some_iff.2 rfl] at hbody
          cases hbody
        | argument k body =>
          cases k with
          | inclusion => exact absurd rfl (hinclude body)
          | _ => exact Item.copies_late hwell trivial _ List.mem_cons_self
        | fixed k => cases k <;> exact Item.copies_late hwell trivial _ List.mem_cons_self
        | _ => exact Item.copies_late hwell trivial _ List.mem_cons_self
      rw [List.flatMap_cons, hi.run, ih h.2]
  have hlate (t : Translator) : Pass.runAll t.latePasses p (is.flatMap Item.source) =
      Pass.runAll t.latePasses.tail p (is.flatMap Item.source) := by
    have hrun : Pass.runAll t.latePasses p (is.flatMap Item.source) = Pass.runAll t.latePasses.tail
        ((Pass.plain Directive.tag_readInclude t.emitInclude).run p (is.flatMap Item.source)).2
        ((Pass.plain Directive.tag_readInclude t.emitInclude).run p (is.flatMap Item.source)).1 := rfl
    rw [hrun, hcopies]
  rw [hlate, hlate]
  rfl

/-- What becomes of a template without includes does not depend on the extension of includes. -/
theorem translate_extension (t : Translator) {items : List Item}
    (h : ∀ i ∈ items, i.WellFormed ∧ ∀ body, i ≠ .argument .inclusion body) (extension : Chars) :
    t.translate (items.flatMap Item.source) = { t with extension }.translate (items.flatMap Item.source) := by
  have hwell : ∀ i ∈ items.map (Item.recoded Recoding.shields), i.WellFormed :=
    List.forall_mem_map.2 fun i hi => Item.wellFormed_escape (h i hi).1
  have hinclude : ∀ i ∈ items.map (Item.recoded Recoding.shields), ∀ body, i ≠ .argument .inclusion body := by
    refine List.forall_mem_map.2 fun i hi body => ?_
    cases i with
    | argument k b =>
      cases k with
      | inclusion => exact absurd rfl ((h _ hi).2 b)
      | _ =>
        intro h
        cases h
    | _ =>
      intro h
      cases h
  obtain ⟨-, -, hparked, hnone⟩ := parkAll_spec t blockKinds {} (items.map (Item.recoded Recoding.shields))
  have hkeep {i j : Item} {shelf : List Chars} (hij : Parked t shelf i j)
      (hi : ∀ body, i ≠ .argument .inclusion body) : ∀ body, j ≠ .argument .inclusion body := by
    cases hij with
    | same => exact hi
    | placed =>
      intro body h
      cases h
  have hearly := runAll_early_items t hwell {}
  rw [← escape_items] at hearly
  have hlate := runAll_latePasses_extension (t := t) (fun i hi =>
    ⟨Parked.forall_mem Parked.wellFormed hparked hwell i hi, fun k => hnone k (.inl (by cases k <;> decide)) i hi,
      Parked.forall_mem hkeep hparked hinclude i hi⟩) extension
    (parkAll t blockKinds {} (items.map (Item.recoded Recoding.shields))).2
  -- the early passes do not know the extension
  rw [translate_eq_of_blocks t .comment hearly, hlate, translate_eq_of_blocks { t with extension } .comment hearly]

/-- Without includes a template is translated item by item, whatever the extension of includes is. -/
theorem translate_of_no_inclusion (t : Translator) {items : List Item}
    (h : ∀ i ∈ items, i.WellFormed ∧ ∀ body, i ≠ .argument .inclusion body) :
    t.translate (items.flatMap Item.source) = translateItems t 0 items := by
  have hout (depth : Int) :
      translateItems { t with extension := [] } depth items = translateItems t depth items := by
    induction items generalizing depth with
    | nil => rfl
    | cons i is ih =>
      rw [List.forall_mem_cons] at h
      have hi : i.output { t with extension := [] } (depth + i.turn) = i.output t (depth + i.turn) := by
        cases i with
        | argument k body => cases k <;> first | rfl | exact absurd rfl (h.1.2 body)
        | block k body => cases k <;> rfl
        | _ => rfl
      rw [translateItems, translateItems, hi, ih h.2]
  have hext : Tagless { t with extension := [] }.extension := .of_not_mem List.not_mem_nil
  obtain ⟨shelf, js, hparked, hitems⟩ := exists_translate_eq hext fun i hi => (h i hi).1
  rw [translate_extension t h [], hitems, restore_items List.not_mem_nil hparked, hout]

end Translator

/-! ## Nested loops -/

namespace LoopTemplate

open Translator

/-- The tags that open the loop at a depth: the loop, and the names for its element and its key. -/
def opening (depth : Nat) (collection : Chars) : Chars :=
  Dialect.tag ("for ".toList ++ numbered "key" depth ++ ", ".toList ++ numbered "value" depth ++ " in ".toList ++
      collection ++ "|legacy_pairs".toList) ++
    Dialect.tag ("set value = ".toList ++ numbered "value" depth) ++
    Dialect.tag ("set key = ".toList ++ numbered "key" depth)

/-- A template in the language of the engine, inside of so many loops. -/
def target (depth : Nat) : LoopTemplate → Chars
  | text s => s
  | output lead name rest => lead ++ (Dialect.output (name ++ "|safe".toList) ++ rest.target depth)
  | loop lead collection body rest =>
    lead ++ (opening (depth + 1) collection ++
      (body.target (depth + 1) ++ (Dialect.tag "endfor".toList ++ rest.target depth)))

theorem emitLoop_name {t : Translator} (ht : t.dialect = .minijinja) (depth : Nat) {collection : Chars}
    (h : IsIdentifier collection) :
    t.emitLoop depth (LoopNames.header ('$' :: collection) .numbered) = opening depth collection := by
  simp only [emitLoop, LoopNames.header, readCounting_name h, Expression.translate_name h, Option.map_none, ht,
    Dialect.forPair, operand_name h, opening, List.append_assoc]

theorem wellFormed_items {x : LoopTemplate} (h : x.WellFormed) :
    ∀ i ∈ x.items, i.WellFormed ∧ ∀ body, i ≠ .argument .inclusion body := by
  induction x with
  | text s => exact List.forall_mem_singleton.2 ⟨h, by simp⟩
  | output lead name rest ih =>
    exact List.forall_mem_cons.2 ⟨⟨h.1, by simp⟩,
      List.forall_mem_cons.2 ⟨⟨wellFormed_var h.2.1.1, by simp⟩, ih h.2.2⟩⟩
  | loop lead collection body rest ihb ihr =>
    have hquote : '\x22' ∉ '$' :: collection :=
      List.not_mem_cons_of_ne_of_not_mem (by decide) (h.2.1.1.not_mem rfl)
    refine List.forall_mem_cons.2 ⟨⟨h.1, by simp⟩, List.forall_mem_cons.2 ⟨⟨?_, by simp⟩, ?_⟩⟩
    · exact ⟨hquote, (wellFormed_var h.2.1.1).2, fun _ hm => absurd hm List.not_mem_nil⟩
    · exact List.forall_mem_append.2 ⟨ihb h.2.2.1, List.forall_mem_cons.2 ⟨⟨trivial, by simp⟩, ihr h.2.2.2⟩⟩

/-- The items of a template are translated one by one, and leave the depth as it was. -/
theorem translateItems_items {t : Translator} (ht : t.dialect = .minijinja) {x : LoopTemplate} (h : x.WellFormed)
    (depth : Nat) (more : List Item) :
    translateItems t depth (x.items ++ more) = x.target depth ++ translateItems t depth more := by
  have hstill (depth : Int) {i : Item} (hi : i.turn = 0) (is : List Item) :
      translateItems t depth (i :: is) = i.output t depth ++ translateItems t depth is := by
    rw [translateItems, hi, Int.add_zero]
  induction x generalizing depth more with
  | text s => exact hstill _ rfl more
  | output lead name rest ih =>
    have hvar : (Item.var ('$' :: name)).output t depth = Dialect.output (name ++ "|safe".toList) := by
      rw [Item.output, emitVariable_name t h.2.1.1, ht]
      rfl
    rw [items, List.cons_append, List.cons_append, hstill _ rfl, hstill _ rfl, hvar, ih h.2.2, target]
    simp only [Item.output, List.append_assoc]
  | loop lead collection body rest ihb ihr =>
    have hopen (is : List Item) : translateItems t depth (.loop ('$' :: collection) .numbered :: is) =
        opening (depth + 1) collection ++ translateItems t (depth + 1 : Nat) is := by
      have hemit : t.emitLoop ((depth : Int) + 1) _ = _ := emitLoop_name ht (depth + 1) h.2.1.1
      rw [translateItems, Item.output, Item.turn, hemit]
      rfl
    have hclose (is : List Item) : translateItems t (depth + 1 : Nat) (.endLoop :: is) =
        Dialect.tag "endfor".toList ++ translateItems t depth is := by
      have hdepth : ((depth + 1 : Nat) : Int) + Item.endLoop.turn = depth := by
        rw [Item.turn]
        omega
      rw [translateItems, hdepth, Item.output]
    rw [items, List.cons_append, List.cons_append, List.append_assoc, List.cons_append, hstill _ rfl, hopen,
      ihb h.2.2.1, hclose, ihr h.2.2.2, target]
    simp only [Item.output, List.append_assoc]

/-- Nested loops are translated one by one, each with the names of its depth. -/
theorem translate_loops {t : Translator} (ht : t.dialect = .minijinja) {x : LoopTemplate} (h : x.WellFormed) :
    t.translate x.source = x.target 0 := by
  have hitems := translateItems_items ht h 0 []
  rw [List.append_nil, translateItems, List.append_nil] at hitems
  rw [← source_items, translate_of_no_inclusion t (wellFormed_items h)]
  exact hitems

end LoopTemplate
end ViewBridge
