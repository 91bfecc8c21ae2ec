import ViewBridge.Helper.Call
import ViewBridge.Proofs.Item.Translation
import ViewBridge.Proofs.Phrase.Scanning
/-!
# Includes of literal names

An include of a literal name writes the name between single quotes, as it stands. What the target language reads there
is the name itself only if no quote closes the text and no backslash in it starts an escape, and the extension is there
only where a name has no dot at all, while a name that is computed gets it where its last part has none.

Results:
* `Quotes.read_eq_iff`: what a text between quotes has to be for it to be read as at least as much as is written.
* `quotes_readName`: how the engine reads texts between single quotes.
* `translate_inclusion`: what an include of a literal name becomes, and when that asks for the file that the same name,
  computed, would ask for.
-/
namespace ViewBridge

/-! ## Texts between single quotes -/

/-- How a language reads the text behind a single quote, up to the next one: a character stands for itself unless it is
a backslash, which is kept in front of some characters and makes an escape with all others. -/
structure Quotes (keeps : Char → Bool) (read : Chars → Option (Chars × Chars)) : Prop where
  nothing : read [] = none
  alone : read ['\\'] = none
  closes : ∀ s, read ('\x27' :: s) = some ([], s)
  plain : ∀ c s, c ≠ '\x27' → c ≠ '\\' → read (c :: s) = (read s).map fun (text, rest) => (c :: text, rest)
  kept : ∀ c s, keeps c = true → read ('\\' :: c :: s) = (read s).map fun (text, rest) => ('\\' :: c :: text, rest)
  escape : ∀ c s text rest, keeps c = false → read ('\\' :: c :: s) = some (text, rest) →
    ∃ used, s = used ++ '\x27' :: rest ∧ text.length ≤ used.length + 1
  quote : keeps '\x27' = false

/-- Whether a text between single quotes stands for itself: no quote is in it but behind a backslash, and no backslash
but in front of a character that it is kept in front of. -/
def standsForItself (keeps : Char → Bool) : Chars → Bool
  | [] => true
  | [c] => c != '\x27' && c != '\\'
  | c :: d :: s =>
    if c = '\\' then keeps d && standsForItself keeps s else c != '\x27' && standsForItself keeps (d :: s)

namespace Quotes

variable {keeps : Char → Bool} {read : Chars → Option (Chars × Chars)} {s after text : Chars}

/-- What stands for itself is read as it is. -/
theorem read_of_standsForItself (h : Quotes keeps read) (hs : standsForItself keeps s = true) (after : Chars) :
    read (s ++ '\x27' :: after) = some (s, after) := by
  fun_induction standsForItself keeps s with
  | case1 => exact h.closes after
  | case2 c =>
    simp only [Bool.and_eq_true, bne_iff_ne] at hs
    rw [List.cons_append, h.plain c _ hs.1 hs.2, List.nil_append, h.closes]
    rfl
  | case3 d s ih =>
    rw [Bool.and_eq_true] at hs
    rw [List.cons_append, List.cons_append, h.kept d _ hs.1, ih hs.2]
    rfl
  | case4 c d s hc ih =>
    rw [Bool.and_eq_true, bne_iff_ne] at hs
    rw [List.cons_append, h.plain c _ hs.1 hc, ih hs.2]
    rfl

/-- A quote closes the text, so what goes on behind it is not the rest. -/
theorem ne_of_read {c : Char} (h : Quotes keeps read) (hread : read (c :: (s ++ '\x27' :: after)) = some (text, after)) :
    c ≠ '\x27' := by
  rintro rfl
  rw [h.closes] at hread
  have hrest := congrArg List.length (Prod.mk.inj (Option.some.inj hread)).2
  rw [List.length_append, List.length_cons] at hrest
  omega

/-- What is read as at least as much as is written stands for itself: a quote inside closes the text too early, and an
escape takes more characters than it stands for. -/
theorem standsForItself_of_read (h : Quotes keeps read) (hread : read (s ++ '\x27' :: after) = some (text, after))
    (hlength : s.length ≤ text.length) : standsForItself keeps s = true ∧ text = s := by
  fun_induction standsForItself keeps s generalizing text with
  | case1 =>
    rw [List.nil_append, h.closes] at hread
    cases hread
    exact ⟨rfl, rfl⟩
  | case2 c =>
    have hquote := h.ne_of_read (s := []) hread
    by_cases hslash : c = '\\'
    · subst hslash
      obtain ⟨used, hused, -⟩ := h.escape _ _ _ _ h.quote hread
      have hlen := congrArg List.length hused
      rw [List.length_append, List.length_cons] at hlen
      omega
    · rw [List.cons_append, h.plain c _ hquote hslash, List.nil_append, h.closes] at hread
      cases hread
      exact ⟨by simp [hquote, hslash], rfl⟩
  | case3 d s ih =>
    cases hkeeps : keeps d with
    | true =>
      rw [List.cons_append, List.cons_append, h.kept d _ hkeeps] at hread
      obtain ⟨⟨text', rest⟩, hread', heq⟩ := Option.map_eq_some_iff.1 hread
      cases heq
      simp only [List.length_cons] at hlength
      obtain ⟨hs, rfl⟩ := ih hread' (by omega)
      exact ⟨hs, rfl⟩
    | false =>
      obtain ⟨used, hused, hle⟩ := h.escape _ (s ++ '\x27' :: after) _ _ hkeeps hread
      obtain rfl := List.append_cancel_right hused
      simp only [List.length_cons] at hlength
      omega
  | case4 c d s hc ih =>
    have hquote := h.ne_of_read (s := d :: s) hread
    rw [List.cons_append, h.plain c _ hquote hc] at hread
    obtain ⟨⟨text', rest⟩, hread', heq⟩ := Option.map_eq_some_iff.1 hread
    cases heq
    simp only [List.length_cons] at hlength
    obtain ⟨hs, rfl⟩ := ih hread' (by simp only [List.length_cons]; omega)
    exact ⟨by rw [hs, bne_iff_ne.2 hquote]; rfl, rfl⟩

/-- A text between quotes is read as at least as much as is written exactly if it stands for itself. -/
theorem read_eq_iff (h : Quotes keeps read) (hlength : s.length ≤ text.length) (after : Chars) :
    read (s ++ '\x27' :: after) = some (text, after) ↔ standsForItself keeps s = true ∧ text = s := by
  refine ⟨fun hread => h.standsForItself_of_read hread hlength, ?_⟩
  rintro ⟨hs, rfl⟩
  exact h.read_of_standsForItself hs after

end Quotes

/-! ## Texts between single quotes in the engine -/

namespace Template

/-- The text that the engine reads behind a single quote, if there is one, with what follows the closing quote. -/
def readName (s : Chars) : Option (Chars × Chars) :=
  match readText '\x27' s with
  | (.text t, rest) => some (t, rest)
  | _ => none

/-- Whether the engine keeps a backslash in front of a character. -/
def keepsBackslash (c : Char) : Bool := (escapeOf? c).isNone && c != 'u'

theorem readName_eq (s : Chars) : readName s =
    (readQuoted '\x27' s).bind fun (body, rest) => (unescape body).map fun text => (text, rest) := by
  unfold readName readText
  rcases readQuoted '\x27' s with - | ⟨body, rest⟩
  · rfl
  · rw [Option.bind_some]
    dsimp only
    cases unescape body <;> rfl

theorem eq_append_of_readQuoted {q : Char} {s body rest : Chars} (h : readQuoted q s = some (body, rest)) :
    s = body ++ q :: rest := by
  fun_induction readQuoted q s generalizing body with
  | case1 => cases h
  | case2 c s ih =>
    obtain ⟨⟨body', rest'⟩, hread, heq⟩ := Option.map_eq_some_iff.1 h
    cases heq
    rw [List.cons_append, List.cons_append, ← ih hread]
  | case3 s =>
    cases h
    rfl
  | case4 c s hescape hclose ih =>
    obtain ⟨⟨body', rest'⟩, hread, heq⟩ := Option.map_eq_some_iff.1 h
    cases heq
    rw [List.cons_append, ← ih hread]

/-- No escape stands for more characters than it is written with. -/
theorem length_le_of_unescapeFrom {half : Option Nat} {s text : Chars} (h : unescapeFrom half s = some text) :
    text.length ≤ s.length := by
  have hcons {c : Char} {s text : Chars} (ih : ∀ {text}, unescapeFrom none s = some text → text.length ≤ s.length)
      (h : (unescapeFrom none s).map (c :: ·) = some text) : text.length ≤ s.length + 1 := by
    obtain ⟨text', hread, rfl⟩ := Option.map_eq_some_iff.1 h
    exact Nat.succ_le_succ (ih hread)
  fun_induction unescapeFrom half s generalizing text with
  | case1 | case3 | case6 | case8 | case9 | case12 => cases h
  | case2 =>
    cases h
    exact Nat.le_refl _
  | case4 a b c d s n _ _ ih | case7 a b c d s n _ high _ _ ih =>
    have hle := hcons ih h
    simp only [List.length_cons]
    omega
  | case5 a b c d s n _ _ ih =>
    have hle := ih h
    simp only [List.length_cons]
    omega
  | case10 half c s _ _ d _ ih =>
    have hle := hcons ih h
    simp only [List.length_cons]
    omega
  | case11 half c s _ _ _ ih =>
    obtain ⟨text', hread, rfl⟩ := Option.map_eq_some_iff.1 h
    exact Nat.succ_le_succ (Nat.succ_le_succ (ih hread))
  | case13 half c s _ _ _ ih => exact hcons ih h

/-- A backslash that is not kept is left out with what makes the escape. -/
theorem length_le_of_escape {c : Char} {s text : Chars} (hc : keepsBackslash c = false)
    (h : unescapeFrom none ('\\' :: c :: s) = some text) : text.length ≤ s.length + 1 := by
  have hcons {c : Char} {s text : Chars} (h : (unescapeFrom none s).map (c :: ·) = some text) :
      text.length ≤ s.length + 1 := by
    obtain ⟨text', hread, rfl⟩ := Option.map_eq_some_iff.1 h
    exact Nat.succ_le_succ (length_le_of_unescapeFrom hread)
  -- no surrogate is held in front of the backslash
  rw [unescapeFrom.eq_def] at h
  split at h
  · rename_i heq
    cases heq
  · rename_i a b c d rest heq
    cases heq
    split at h
    · cases h
    · split at h
      · have hle := hcons h
        simp only [List.length_cons]
        omega
      · have hle := length_le_of_unescapeFrom h
        simp only [List.length_cons]
        omega
      all_goals contradiction
  · rename_i c' rest _ heq
    cases heq
    split at h
    · cases h
    · rename_i hu
      split at h
      · exact hcons h
      · rename_i hnone
        rw [not_or] at hu
        simp [keepsBackslash, hnone, hu.2] at hc
  · rename_i c' rest _ hslash heq
    cases heq
    exact (hslash c s rfl rfl).elim

/-- The engine reads texts between single quotes as such a language does. -/
theorem quotes_readName : Quotes keepsBackslash readName where
  nothing := rfl
  alone := rfl
  closes s := rfl
  plain c s hquote hslash := by
    rw [readName_eq, readName_eq, readQuoted_cons hslash, if_neg hquote]
    rcases readQuoted '\x27' s with - | ⟨body, rest⟩
    · rfl
    · have hread : unescape (c :: body) = (unescape body).map (c :: ·) := by
        rw [unescape, unescapeFrom, if_neg (by simpa using hslash)]
        · rfl
        all_goals (intros; exact absurd ‹c = '\\'› hslash)
      simp only [Option.map_some, Option.bind_some, hread, Option.map_map]
      rfl
  kept c s hc := by
    simp only [keepsBackslash, Bool.and_eq_true, Option.isNone_iff_eq_none, bne_iff_ne] at hc
    rw [readName_eq, readName_eq, readQuoted]
    rcases readQuoted '\x27' s with - | ⟨body, rest⟩
    · rfl
    · have hread : unescape ('\\' :: c :: body) = (unescape body).map ('\\' :: c :: ·) := by
        rw [unescape, unescapeFrom, if_neg (by simpa using hc.2)]
        · rw [hc.1]
          rfl
        · intro a b d e rest hu
          exact absurd hu hc.2
      simp only [Option.map_some, Option.bind_some, hread, Option.map_map]
      rfl
  escape c s text rest hc h := by
    rw [readName_eq] at h
    obtain ⟨⟨body, rest'⟩, hquoted, h⟩ := Option.bind_eq_some_iff.1 h
    obtain ⟨text', hunescape, heq⟩ := Option.map_eq_some_iff.1 h
    cases heq
    obtain ⟨⟨body', rest'⟩, hbody, heq⟩ := Option.map_eq_some_iff.1 hquoted
    cases heq
    exact ⟨body', eq_append_of_readQuoted hbody, length_le_of_escape hc hunescape⟩
  quote := rfl

end Template
/-! ## The tags of includes -/

namespace Dialect

/-- What stands in front of the quoted name in an include. -/
def beforeName : Dialect → Chars
  | twig => "\x7b\x7b include(".toList
  | minijinja => "\x7b% include ".toList

/-- What stands behind the quoted name in an include. -/
def afterName : Dialect → Chars
  | twig => ") \x7d\x7d".toList
  | minijinja => " %\x7d".toList

theorem includeLiteral_eq (d : Dialect) (file : Chars) :
    d.includeLiteral file = d.beforeName ++ '\x27' :: (file ++ '\x27' :: d.afterName) := by
  cases d <;> simp only [includeLiteral, output, tag, List.append_assoc] <;> rfl

end Dialect

namespace Translator

variable {t : Translator} {name : Chars}

/-- The name that an include of a literal name is written with: any dot in it counts as an extension. -/
def includedName (t : Translator) (name : Chars) : Chars :=
  if name.contains '.' then name else name ++ '.' :: t.extension

theorem emitInclude_eq (t : Translator) (h : name.head? ≠ some '$') :
    t.emitInclude name = t.dialect.includeLiteral (t.includedName name) := by
  unfold emitInclude includedName
  rw [if_neg h]
  split <;> rfl

theorem mem_of_mem_afterLast {c d : Char} {s : Chars} (h : c ∈ Text.afterLast d s) : c ∈ s := by
  rw [Text.afterLast, List.mem_reverse] at h
  exact List.mem_reverse.1 ((List.takeWhile_prefix _).mem h)

theorem length_includedName_le (t : Translator) (name : Chars) :
    (t.includedName name).length ≤ (Helper.withExtension t.extension name).length := by
  unfold includedName Helper.withExtension
  split
  · split
    · exact Nat.le_refl _
    · exact List.length_append ▸ Nat.le_add_right _ _
  · rename_i hdot
    rw [if_neg]
    exact fun hlast => hdot (List.contains_iff_mem.2 (mem_of_mem_afterLast (List.contains_iff_mem.1 hlast)))

/-- A name is written as the name that is computed of it, unless its only dots are those of directories. -/
theorem withExtension_eq_includedName_iff (t : Translator) (name : Chars) :
    Helper.withExtension t.extension name = t.includedName name ↔ ('.' ∈ name → '.' ∈ Text.afterLast '/' name) := by
  unfold includedName Helper.withExtension
  simp only [List.contains_iff_mem]
  by_cases hdot : '.' ∈ name <;> by_cases hlast : '.' ∈ Text.afterLast '/' name
  · simp [hdot, hlast]
  · simp [hdot, hlast]
  · exact absurd (mem_of_mem_afterLast hlast) hdot
  · simp [hdot, hlast]

/-! ## Translated includes -/

theorem startsTag_append {s : Chars} (h : startsTag s = true) (t : Chars) : startsTag (s ++ t) = true := by
  match s with
  | [] => cases h
  | [_] => cases h
  | [b, c] =>
    simp only [startsTag, List.head?_nil, Option.any_none, Bool.and_false, Bool.or_false] at h
    simp only [List.cons_append, startsTag, Bool.and_eq_true, Bool.or_eq_true] at h ⊢
    exact ⟨h.1, .inl h.2⟩
  | b :: c :: d :: s => exact h

namespace Tagless

theorem of_append {s t : Chars} (h : Tagless (s ++ t)) : Tagless s := by
  intro v hv
  cases hstart : startsTag v with
  | false => rfl
  | true =>
    obtain ⟨u, rfl⟩ := hv
    have hmore := h (v ++ t) ⟨u, (List.append_assoc u v t).symm⟩
    rw [startsTag_append hstart] at hmore
    cases hmore

/-- Escaping makes no tag. -/
theorem escape {s : Chars} (h : Tagless s) : Tagless (Shelf.escape s) := by
  -- what starts a tag is in the first characters, and none of them is a shield
  have hword {w r : Chars} (hw : startsTag w = true) (ho : Shelf.opening ∉ w) (hc : Shelf.closing ∉ w) :
      ¬ w ++ r <:+ Shelf.escape s := by
    intro hsuffix
    obtain ⟨u, v, hs⟩ := infix_of_infix_escape ho hc ((List.prefix_append w r).isInfix.trans hsuffix.isInfix)
    have hnone := h (w ++ v) ⟨u, by rw [← hs, List.append_assoc]⟩
    rw [startsTag_append hw] at hnone
    cases hnone
  intro v hv
  cases hstart : startsTag v with
  | false => rfl
  | true =>
    match v with
    | b :: c :: r =>
      simp only [startsTag, Bool.and_eq_true, beq_iff_eq, Bool.or_eq_true] at hstart
      obtain ⟨rfl, hshort | ⟨rfl, hname⟩⟩ := hstart
      · have hw : startsTag ['\x7b', c] = true := by simpa [startsTag] using hshort
        refine absurd hv (hword (w := ['\x7b', c]) hw ?_ ?_)
        all_goals
          intro hm
          obtain rfl := List.mem_singleton.1 (List.mem_of_ne_of_mem (by decide) hm)
          revert hw
          decide
      · obtain ⟨d, r, rfl⟩ : ∃ d r', r = d :: r' := by
          cases r with
          | nil => cases hname
          | cons d r => exact ⟨d, r, rfl⟩
        have hw : startsTag ['\x7b', '#', d] = true := by simpa [startsTag] using hname
        refine absurd hv (hword (w := ['\x7b', '#', d]) hw ?_ ?_)
        all_goals
          intro hm
          obtain rfl := List.mem_singleton.1 (List.mem_of_ne_of_mem (by decide) (List.mem_of_ne_of_mem (by decide) hm))
          revert hw
          decide

end Tagless

/-- An include is copied by every pass that does not read it in front. -/
theorem copies_inclusion {x : Pass} (hx : x ∈ Stage.pipeline.flatMap t.passes) (htags : Tagless name)
    (hfront : ∀ s, x.read (ArgumentTag.lead .inclusion ++ s) = none) :
    x.Copies (Item.argument .inclusion name).source := by
  have htail : Silent ("include=".toList ++ '\x22' :: (name ++ "\x22\x7d".toList)) := by
    refine .append (.of_not_mem (by decide)) (.append (v := ['\x22']) (.of_not_mem (by decide)) ?_)
    exact .append_cons rfl htags (.of_not_mem (by decide))
  intro v hv hsuffix s
  rcases List.suffix_cons_iff.1 (show v <:+ '\x7b' :: ("include=".toList ++ '\x22' :: (name ++ "\x22\x7d".toList))
    from hsuffix) with rfl | hsuffix
  · exact hfront (name ++ "\x22\x7d".toList ++ s)
  · exact htail.copies hx v hv hsuffix s

/-- The passes make an include tag of a name without tags what the include becomes. -/
theorem runAll_inclusion (hne : name ≠ []) (hquote : '\x22' ∉ name) (hsigil : name.head? ≠ some '$')
    (htags : Tagless (t.includedName name)) (p : Progress) :
    Pass.runAll (Stage.pipeline.flatMap t.passes) p (Item.argument .inclusion name).source =
      (t.emitInclude name, p) := by
  have hname : Tagless name := by
    unfold includedName at htags
    split at htags
    · exact htags
    · exact htags.of_append
  have hfront (x : Pass) (hx : x ∈ entityPass :: blockKinds.map (BlockKind.pass t)) :
      x.Copies (Item.argument .inclusion name).source := by
    refine copies_inclusion (t := t) ?_ hname ?_
    · rw [pipeline_eq_cons, ← List.cons_append]
      exact List.mem_append_left _ hx
    · simp only [blockKinds, List.map_cons, List.map_nil, List.mem_cons, List.not_mem_nil, or_false] at hx
      rcases hx with rfl | rfl | rfl | rfl <;> exact fun _ => rfl
  have hbehind : ∀ y ∈ t.latePasses.tail, y.Copies (t.emitInclude name) := fun y hy => by
    rw [emitInclude_eq t hsigil]
    exact (silent_includeLiteral t.dialect htags).copies (mem_pipeline_of_mem_latePasses (List.mem_of_mem_tail hy))
  have hread (s : Chars) : Directive.readInclude ((Item.argument .inclusion name).source ++ s) = some (name, s) :=
    Option.filter_eq_some_iff.2 ⟨readArgument_append _ hquote s, by simpa using hne⟩
  have hrun := Pass.runAll_of_read (x := .plain Directive.tag_readInclude t.emitInclude) hfront hread (fun _ => rfl)
    hbehind p []
  rw [List.append_nil, Pass.runAll_nil, List.append_nil] at hrun
  exact hrun

/-- A name is written escaped as it is, and so is what an include of it asks for. -/
theorem includedName_escape (h : '.' ∉ name → Shelf.opening ∉ t.extension) :
    t.includedName (Shelf.escape name) = Shelf.escape (t.includedName name) := by
  have hdot : '.' ∈ Shelf.escape name ↔ '.' ∈ name := Shelf.mem_escape (by decide)
  unfold includedName
  simp only [List.contains_iff_mem, hdot]
  split
  · rfl
  · rename_i hnone
    rw [Shelf.escape_append, Shelf.escape_cons, if_neg (by decide), Shelf.escape_eq_self (h hnone)]

variable {keeps : Char → Bool} {read : Chars → Option (Chars × Chars)}

/-- An include of a literal name becomes one of the name between single quotes, with the extension if there is no dot in
it. What the target language reads there is the name that the same name, computed, would ask for, exactly if the quoted
text stands for itself, and the name has a dot only if its last part has one. -/
theorem translate_inclusion (hreads : Quotes keeps read) (hne : name ≠ []) (hquote : '\x22' ∉ name)
    (hsigil : name.head? ≠ some '$') (htags : Tagless (t.includedName name))
    (hshield : '.' ∉ name → Shelf.opening ∉ t.extension) :
    t.translate (Item.argument .inclusion name).source =
        t.dialect.beforeName ++ '\x27' :: (t.includedName name ++ '\x27' :: t.dialect.afterName) ∧
      ((∃ requested, read (t.includedName name ++ '\x27' :: t.dialect.afterName) =
            some (requested, t.dialect.afterName) ∧
          Helper.fileName t.extension (.ofChars name) = .ofChars requested) ↔
        standsForItself keeps (t.includedName name) = true ∧ ('.' ∈ name → '.' ∈ Text.afterLast '/' name)) := by
  constructor
  · have hsource : Shelf.escape (Item.argument .inclusion name).source =
        (Item.argument .inclusion (Shelf.escape name)).source := by
      rw [Recoding.escape_eq, ← Item.source_recoded Recoding.framed_shields, Item.recoded, ← Recoding.escape_eq]
    have hincluded := includedName_escape hshield
    have hsigil' : (Shelf.escape name).head? ≠ some '$' := by
      rwa [ne_eq, Recoding.escape_eq, Recoding.shields.head?_text_eq_some_iff (by decide)]
    have hne' : Shelf.escape name ≠ [] := by rwa [ne_eq, Recoding.escape_eq, Recoding.text_eq_nil_iff]
    have hquote' : '\x22' ∉ Shelf.escape name := mt (Shelf.mem_escape (by decide)).1 hquote
    have hrun := runAll_inclusion hne' hquote' hsigil' (hincluded ▸ htags.escape) {}
    have hliteral := Recoding.framed_shields.includeLiteral t.dialect (t.includedName name)
    rw [translate_eq, runStages_eq, hsource, hrun, emitInclude_eq t hsigil', hincluded, Recoding.escape_eq, ← hliteral,
      ← Recoding.escape_eq]
    have hrestore := Shelf.restore_escape_append [] (t.dialect.includeLiteral (t.includedName name)) []
    rw [List.append_nil] at hrestore
    rw [hrestore, Shelf.restore, Text.substitute_nil, Shelf.unescape_nil, List.append_nil, Dialect.includeLiteral_eq]
  · have hfile : Helper.fileName t.extension (.ofChars name) = .ofChars (Helper.withExtension t.extension name) :=
      if_neg hne
    rw [hfile]
    have hlength := length_includedName_le t name
    have hread := hreads.read_eq_iff hlength t.dialect.afterName
    constructor
    · rintro ⟨requested, hrequested, heq⟩
      cases heq
      obtain ⟨hs, heq⟩ := hread.1 hrequested
      exact ⟨hs, (withExtension_eq_includedName_iff t name).1 heq⟩
    · rintro ⟨hs, hdots⟩
      exact ⟨_, hread.2 ⟨hs, (withExtension_eq_includedName_iff t name).2 hdots⟩, rfl⟩

/-- The dot of a directory keeps the extension away, which the computed name has. -/
theorem translate_inclusion_dotted :
    let t : Translator := ⟨.minijinja, "html".toList⟩
    let name := "a.b/c".toList
    Quotes Template.keepsBackslash Template.readName ∧ name ≠ [] ∧ '\x22' ∉ name ∧ name.head? ≠ some '$' ∧
      Tagless (t.includedName name) ∧ ('.' ∉ name → Shelf.opening ∉ t.extension) ∧
      t.translate (Item.argument .inclusion name).source = "\x7b% include 'a.b/c' %\x7d".toList ∧
      Helper.fileName t.extension (.ofChars name) = .ofChars "a.b/c.html".toList ∧
      ¬ ∃ requested, Template.readName (t.includedName name ++ '\x27' :: t.dialect.afterName) =
          some (requested, t.dialect.afterName) ∧
        Helper.fileName t.extension (.ofChars name) = .ofChars requested := by
  intro t name
  have hne : name ≠ [] := by decide
  have hquote : '\x22' ∉ name := by decide
  have hsigil : name.head? ≠ some '$' := by decide
  have htags : Tagless (t.includedName name) := by decide
  have hshield : '.' ∉ name → Shelf.opening ∉ t.extension := by decide
  obtain ⟨htranslate, hread⟩ := translate_inclusion Template.quotes_readName hne hquote hsigil htags hshield
  refine ⟨Template.quotes_readName, hne, hquote, hsigil, htags, hshield, htranslate, rfl, fun h => ?_⟩
  have hdots := (hread.1 h).2
  revert hdots
  decide

end Translator
end ViewBridge
