import Mathlib.Data.List.Infix
import ViewBridge.Proofs.Balance.Escaped
import ViewBridge.Html
import ViewBridge.Translator
/-!
# Decoded entities

Decoding is a row of replacements, each over the whole text. In an escaped text every ampersand starts an entity, and
no entity starts inside of another one; so a replacement decodes one kind of character and leaves the other entities as
they are, and with the ampersand decoded last nothing that was decoded is read again.

Results:
* `replace_flatMap`: replacing in a text that is written character by character.
* `decode_escape`: decoding gives back what was escaped.
* `readEntities_escape`: a tag with an escaped argument between entities.
* `entities_escape`: the stage of entities on such a tag, in front of any text.
-/
namespace ViewBridge

namespace Text

/-! ## Replacing in what is written character by character -/

/-- Whether two texts differ where both go on. -/
def differ : Chars → Chars → Bool
  | a :: as, b :: bs => a != b || differ as bs
  | _, _ => false

/-- A text that differs from a word does not start with it, whatever stands behind. -/
theorem after?_eq_none_of_differ {w v : Chars} (h : differ w v = true) (s : Chars) : after? w (v ++ s) = none := by
  induction w generalizing v with
  | nil => cases h
  | cons a as ih =>
    cases v with
    | nil => cases h
    | cons b bs =>
      rw [List.cons_append, after?]
      split
      · rename_i hab
        rw [differ, hab, bne_self_eq_false, Bool.false_or] at h
        exact ih h
      · rfl

/-- Where each character is written as the word or as something in which the word does not start, replacing the word
changes how characters are written. -/
theorem replace_flatMap {old new : Chars} {f g : Char → Chars} (hold : old ≠ [])
    (h : ∀ c, f c = old ∧ g c = new ∨ f c = g c ∧ ∀ v, v ≠ [] → v <:+ f c → differ old v = true)
    (s : Chars) : replace old new (s.flatMap f) = s.flatMap g := by
  induction s with
  | nil => rw [List.flatMap_nil, List.flatMap_nil, replace_eq_substitute new hold, substitute_nil]
  | cons c s ih =>
    rw [replace_eq_substitute new hold] at ih ⊢
    rw [List.flatMap_cons, List.flatMap_cons]
    rcases h c with ⟨hf, hg⟩ | ⟨hfg, hnone⟩
    · have hfind : exchange old new (old ++ s.flatMap f) = some (new, s.flatMap f) := by
        rw [exchange, after?_append, Option.map_some]
      have hlength : (s.flatMap f).length < (old ++ s.flatMap f).length := by
        rw [List.length_append]
        have := List.length_pos_iff.2 hold
        omega
      rw [hf, hg, substitute_of_some hfind hlength, ih]
    · rw [substitute_append_of_none fun v hv hs => by rw [exchange, after?_eq_none_of_differ (hnone v hv hs)]; rfl,
        ih, hfg]

end Text

namespace Html

/-! ## Entities one after the other -/

/-- A character as an entity if it is special and not among those that are decoded. -/
def entityBut (decoded : Chars) (c : Char) : Chars := if c ∈ decoded then [c] else entity c

/-- The special characters. -/
def special : Chars := ['&', '<', '>', '\x22', '\x27']

theorem entity_of_not_special {c : Char} (h : c ∉ special) : entity c = [c] := by
  simp only [special, List.mem_cons, List.not_mem_nil, or_false, not_or] at h
  simp [entity, h]

theorem escape_eq_flatMap (s : Chars) : escape s = s.flatMap (entityBut []) := by
  refine congrArg s.flatMap (funext fun c => ?_)
  rw [entityBut, if_neg List.not_mem_nil]

/-- Replacing an entity changes which characters are decoded. -/
theorem replace_entity {w new decoded decoded' : Chars} (hdecoded : decoded ⊆ special) (hdecoded' : decoded' ⊆ special)
    (h : special.Forall fun c => entityBut decoded c = '&' :: w ∧ entityBut decoded' c = new ∨
      entityBut decoded c = entityBut decoded' c ∧
        ∀ v ∈ (entityBut decoded c).tails, v ≠ [] → Text.differ ('&' :: w) v = true) (s : Chars) :
    Text.replace ('&' :: w) new (s.flatMap (entityBut decoded)) = s.flatMap (entityBut decoded') := by
  rw [List.forall_iff_forall_mem] at h
  refine Text.replace_flatMap (List.cons_ne_nil _ _) (fun c => ?_) s
  by_cases hc : c ∈ special
  · exact (h c hc).imp_right fun ⟨heq, hdiffer⟩ => ⟨heq, fun v hv hs => hdiffer v ((List.mem_tails v _).2 hs) hv⟩
  · have hplain {decoded : Chars} (hdecoded : ∀ c ∈ decoded, c ∈ special) : entityBut decoded c = [c] := by
      rw [entityBut, if_neg fun hmem => hc (hdecoded c hmem), entity_of_not_special hc]
    have hamp : '&' ≠ c := by
      rintro rfl
      exact hc List.mem_cons_self
    refine .inr ⟨(hplain hdecoded).trans (hplain hdecoded').symm, fun v hv hs => ?_⟩
    rw [hplain hdecoded, List.suffix_cons_iff, List.suffix_nil, or_iff_left hv] at hs
    rw [hs, Text.differ, bne_iff_ne.2 hamp, Bool.true_or]

end Html

namespace Translator

/-- Decoding gives back what was escaped. -/
theorem decode_escape (s : Chars) : decodeEntities (Html.escape s) = s := by
  have hquote : Text.replace "&quot;".toList "\x22".toList (s.flatMap (Html.entityBut [])) =
      s.flatMap (Html.entityBut ['\x22']) :=
    Html.replace_entity (w := "quot;".toList) (by decide) (by decide) (by decide) s
  have hapostrophe : Text.replace "&#039;".toList "'".toList (s.flatMap (Html.entityBut ['\x22'])) =
      s.flatMap (Html.entityBut ['\x27', '\x22']) :=
    Html.replace_entity (w := "#039;".toList) (by decide) (by decide) (by decide) s
  -- two spellings of the apostrophe that escaping does not use
  have hshort : Text.replace "&#39;".toList "'".toList (s.flatMap (Html.entityBut ['\x27', '\x22'])) =
      s.flatMap (Html.entityBut ['\x27', '\x22']) :=
    Html.replace_entity (w := "#39;".toList) (by decide) (by decide) (by decide) s
  have hnamed : Text.replace "&apos;".toList "'".toList (s.flatMap (Html.entityBut ['\x27', '\x22'])) =
      s.flatMap (Html.entityBut ['\x27', '\x22']) :=
    Html.replace_entity (w := "apos;".toList) (by decide) (by decide) (by decide) s
  have hless : Text.replace "&lt;".toList "<".toList (s.flatMap (Html.entityBut ['\x27', '\x22'])) =
      s.flatMap (Html.entityBut ['<', '\x27', '\x22']) :=
    Html.replace_entity (w := "lt;".toList) (by decide) (by decide) (by decide) s
  have hgreater : Text.replace "&gt;".toList ">".toList (s.flatMap (Html.entityBut ['<', '\x27', '\x22'])) =
      s.flatMap (Html.entityBut ['>', '<', '\x27', '\x22']) :=
    Html.replace_entity (w := "gt;".toList) (by decide) (by decide) (by decide) s
  have hampersand : Text.replace "&amp;".toList "&".toList (s.flatMap (Html.entityBut ['>', '<', '\x27', '\x22'])) =
      s.flatMap (Html.entityBut Html.special) :=
    Html.replace_entity (w := "amp;".toList) (by decide) (by decide) (by decide) s
  have hall : Html.entityBut Html.special = List.singleton := by
    funext c
    rw [Html.entityBut]
    split
    · rfl
    · exact Html.entity_of_not_special ‹_›
  rw [decodeEntities, Html.escape_eq_flatMap]
  simp only [List.foldl_cons, List.foldl_nil]
  rw [hquote, hapostrophe, hshort, hnamed, hless, hgreater, hampersand, hall]
  exact List.flatMap_singleton' s

end Translator

/-! ## Escaped arguments -/

namespace Html

theorem escape_cons (c : Char) (s : Chars) : escape (c :: s) = entity c ++ escape s := List.flatMap_cons

/-- An entity is an ampersand and no other one, or the character itself. -/
theorem entity_cases (c : Char) : entity c = [c] ∧ c ≠ '&' ∨ ∃ w, entity c = '&' :: w ∧ '&' ∉ w := by
  by_cases hc : c ∈ special
  · have hspecial : ∀ c ∈ special, entity c = '&' :: (entity c).tail ∧ '&' ∉ (entity c).tail :=
      List.forall_iff_forall_mem.1 (by decide)
    exact .inr ⟨_, hspecial c hc⟩
  · exact .inl ⟨entity_of_not_special hc, fun h => hc (by rw [h]; decide)⟩

/-- Only what starts with a character that is no ampersand is escaped to such a text. -/
theorem eq_cons_of_escape {c : Char} {s t : Chars} (hc : c ≠ '&') (h : escape s = c :: t) : ∃ s', s = c :: s' := by
  cases s with
  | nil => cases h
  | cons d s =>
    rw [escape_cons] at h
    rcases entity_cases d with ⟨hd, -⟩ | ⟨w, hd, -⟩
    · rw [hd] at h
      exact ⟨s, by rw [(List.cons.inj h).1]⟩
    · rw [hd] at h
      exact absurd (List.cons.inj h).1.symm hc

/-- The end of a tag with entities comes from the end of a tag with quotes. -/
theorem infix_of_infix_escape {s : Chars} (h : '&' :: "quot;\x7d".toList <:+: escape s) : ['\x22', '\x7d'] <:+: s := by
  induction s with
  | nil => cases List.infix_nil.1 h
  | cons c s ih =>
    have hbehind (h : '&' :: "quot;\x7d".toList <:+: escape s) : ['\x22', '\x7d'] <:+: c :: s :=
      (ih h).trans (List.suffix_cons c s).isInfix
    rw [escape_cons] at h
    rcases entity_cases c with ⟨hc, hne⟩ | ⟨w, hc, hw⟩
    · rw [hc] at h
      exact hbehind (Text.infix_of_infix_append (mt List.mem_singleton.1 hne.symm) h)
    rw [hc, List.cons_append, List.infix_cons_iff] at h
    rcases h with hstart | hin
    · -- the end starts with the entity of the first character
      rw [← List.cons_append, ← hc] at hstart
      have hquote : c = '\x22' := by
        by_contra hquote
        have hdiffer : ∀ c ∈ special, c = '\x22' ∨ Text.differ "&quot;\x7d".toList (entity c) = true :=
          List.forall_iff_forall_mem.1 (by decide)
        have hspecial : c ∈ special := by
          by_contra hplain
          rw [entity_of_not_special hplain] at hc
          exact hplain (by rw [(List.cons.inj hc).1]; decide)
        have hnone := Text.after?_eq_none_of_differ ((hdiffer c hspecial).resolve_left hquote) (escape s)
        exact (Text.after?_eq_none_iff _ _).1 hnone hstart
      subst hquote
      obtain ⟨t, ht⟩ := hstart
      have hs : escape s = '\x7d' :: t := List.append_cancel_left ht.symm
      obtain ⟨s', rfl⟩ := eq_cons_of_escape (c := '\x7d') (by decide) hs
      exact ⟨[], s', rfl⟩
    · exact hbehind (Text.infix_of_infix_append hw hin)

end Html

namespace Directive

variable {name s : Chars}

/-- A tag whose argument stands between entities, and one whose argument stands between quotes. -/
def entityTag (name argument : Chars) : Chars :=
  '\x7b' :: name ++ "=&quot;".toList ++ argument ++ "&quot;\x7d".toList

@[inherit_doc entityTag]
def quotedTag (name argument : Chars) : Chars :=
  '\x7b' :: name ++ "=\x22".toList ++ argument ++ "\x22\x7d".toList

/-- Whether a text is an argument that a tag between entities can have: there is one, on one line, and the end of the
tag does not stand in it. -/
structure IsArgument (s : Chars) : Prop where
  ne_nil : s ≠ []
  one_line : '\n' ∉ s
  open_end : ¬ ['\x22', '\x7d'] <:+: s

theorem IsArgument.escape (h : IsArgument s) : IsArgument (Shelf.escape s) where
  ne_nil := by
    obtain ⟨c, s, rfl⟩ := List.exists_cons_of_ne_nil h.ne_nil
    rw [Shelf.escape_cons]
    split <;> exact List.cons_ne_nil _ _
  one_line hmem := h.one_line ((Shelf.mem_escape (by decide)).1 hmem)
  open_end := by
    have hnone := (Text.cut?_eq_none_iff (List.cons_ne_nil _ _) s).2 h.open_end
    rw [← Text.cut?_eq_none_iff (List.cons_ne_nil _ _), Shelf.cut?_escape (List.cons_ne_nil _ _) (by decide) (by decide),
      hnone, Option.map_none]

theorem readEntityBody_escape (h : IsArgument s) (rest : Chars) :
    readEntityBody (Html.escape s ++ ("&quot;\x7d".toList ++ rest)) = some (Html.escape s, rest) := by
  have hbreak : '\n' ∉ Html.escape s := fun hmem => by
    obtain ⟨c, hc, hmem⟩ := List.mem_flatMap.1 hmem
    by_cases hspecial : c ∈ Html.special
    · have hnone : ∀ c ∈ Html.special, '\n' ∉ Html.entity c := List.forall_iff_forall_mem.1 (by decide)
      exact hnone c hspecial hmem
    · rw [Html.entity_of_not_special hspecial, List.mem_singleton] at hmem
      exact h.one_line (hmem ▸ hc)
  have hend := mt Html.infix_of_infix_escape h.open_end
  have hne : Html.escape s ≠ [] := by
    obtain ⟨c, s, rfl⟩ := List.exists_cons_of_ne_nil h.ne_nil
    rcases Html.entity_cases c with ⟨hc, -⟩ | ⟨w, hc, -⟩ <;> simp [Html.escape_cons, hc]
  generalize Html.escape s = body at hbreak hend hne
  obtain ⟨c, body, rfl⟩ := List.exists_cons_of_ne_nil hne
  rw [List.mem_cons, not_or] at hbreak
  have hcut : Text.cut? "&quot;\x7d".toList (body ++ ("&quot;\x7d".toList ++ rest)) = some (body, rest) :=
    Text.cut?_append_self (by decide) (fun hin => hend (hin.trans (List.suffix_cons c body).isInfix)) rest
  have hcontains : body.contains '\n' = false := by simpa using hbreak.2
  rw [List.cons_append, readEntityBody, if_neg (Ne.symm hbreak.1), hcut, Option.bind_some]
  simp only [hcontains, Bool.false_eq_true, if_false]

theorem readEntityTag_escape (hname : name ≠ []) (hlower : ∀ c ∈ name, 'a' ≤ c ∧ c ≤ 'z') (h : IsArgument s)
    (rest : Chars) : readEntityTag (entityTag name (Html.escape s) ++ rest) = some ((name, Html.escape s), rest) := by
  have hshape : entityTag name (Html.escape s) ++ rest =
      '\x7b' :: (name ++ '=' :: ("&quot;".toList ++ (Html.escape s ++ ("&quot;\x7d".toList ++ rest)))) := by
    simp [entityTag]
  have hall : ∀ c ∈ name, decide ('a' ≤ c ∧ c ≤ 'z') = true := fun c hc => decide_eq_true (hlower c hc)
  have hname' (r : Chars) : (name ++ '=' :: r).takeWhile (fun c => decide ('a' ≤ c ∧ c ≤ 'z')) = name := by
    rw [Text.takeWhile_append_cons rfl, Text.takeWhile_eq_self hall]
  have hrest (r : Chars) : (name ++ '=' :: r).dropWhile (fun c => decide ('a' ≤ c ∧ c ≤ 'z')) = '=' :: r := by
    rw [Text.dropWhile_append_cons rfl, Text.dropWhile_eq_nil hall, List.nil_append]
  have hopen (r : Chars) : Text.after? "\x7b".toList ('\x7b' :: r) = some r := rfl
  have hquote (r : Chars) : Text.after? "=&quot;".toList ('=' :: ("&quot;".toList ++ r)) = some r := rfl
  rw [hshape, readEntityTag]
  simp only [hopen, Option.bind_eq_bind, Option.bind_some, hname', hrest, if_neg hname, hquote,
    readEntityBody_escape h]
  rfl

end Directive

/-! ## The stage -/

namespace Shelf

theorem escape_markup (s : Chars) : escape (Html.escape s) = Html.escape (escape s) := by
  induction s with
  | nil => simp [Html.escape]
  | cons c s ih =>
    rw [Html.escape_cons, escape_append, ih]
    by_cases hspecial : c ∈ Html.special
    · have hnone : ∀ c ∈ Html.special, c ≠ opening ∧ opening ∉ Html.entity c :=
        List.forall_iff_forall_mem.1 (by decide)
      rw [escape_eq_self (hnone c hspecial).2, escape_cons, if_neg (hnone c hspecial).1, Html.escape_cons]
    · have hopening : Html.entity opening = [opening] := rfl
      have hclosing : Html.entity closing = [closing] := rfl
      rw [Html.entity_of_not_special hspecial, escape_cons, escape_cons]
      split
      · simp [Html.escape_cons, hopening, hclosing]
      · simp [Html.escape_cons, Html.entity_of_not_special hspecial]

end Shelf

namespace Translator

open Directive (entityTag quotedTag IsArgument)

/-- Decoding undoes escaping, and so a tag whose argument was escaped, its quotes as well, becomes the tag with the
argument, whatever stands behind it. -/
theorem entities_escape (t : Translator) :
    (∀ s, decodeEntities (Html.escape s) = s) ∧
    ∀ name s, name ≠ [] → (∀ c ∈ name, 'a' ≤ c ∧ c ≤ 'z') → IsArgument s →
      (∀ p rest, t.runStage .entities p (entityTag name (Html.escape s) ++ rest) =
        (quotedTag name s ++ (t.runStage .entities p rest).1, p)) ∧
      t.translateThrough .entities (entityTag name (Html.escape s)) = quotedTag name s := by
  have hstage (name s : Chars) (hname : name ≠ []) (hlower : ∀ c ∈ name, 'a' ≤ c ∧ c ≤ 'z') (hs : IsArgument s)
      (p : Progress) (rest : Chars) : t.runStage .entities p (entityTag name (Html.escape s) ++ rest) =
        (quotedTag name s ++ (t.runStage .entities p rest).1, p) := by
    have hread : readEntities (entityTag name (Html.escape s) ++ rest) = some (quotedTag name s, rest) := by
      rw [readEntities, Directive.readEntityTag_escape hname hlower hs]
      simp only [Option.map_some, decode_escape]
      rfl
    have hlength : rest.length < (entityTag name (Html.escape s) ++ rest).length := by
      rw [List.length_append, entityTag, List.append_assoc, List.append_assoc, List.length_append, List.length_cons]
      omega
    rw [runStage, Text.substitute_of_some hread hlength]
    rfl
  refine ⟨decode_escape, fun name s hname hlower hs => ⟨hstage name s hname hlower hs, ?_⟩⟩
  -- literal shield characters are escaped on the way and come back
  have hname' : Shelf.escape name = name :=
    Shelf.escape_eq_self fun hmem => absurd (hlower _ hmem).2 (by decide)
  have hfixed (w : Chars) (hw : Shelf.opening ∉ w) : Shelf.escape w = w := Shelf.escape_eq_self hw
  have hbrace (w : Chars) : Shelf.escape ('\x7b' :: w) = '\x7b' :: Shelf.escape w := by
    rw [Shelf.escape_cons, if_neg (by decide)]
  have hsource : Shelf.escape (entityTag name (Html.escape s)) = entityTag name (Html.escape (Shelf.escape s)) := by
    simp (disch := decide) only [entityTag, Shelf.escape_append, hbrace, hname', hfixed, Shelf.escape_markup]
  have htarget : Shelf.escape (quotedTag name s) = quotedTag name (Shelf.escape s) := by
    simp (disch := decide) only [quotedTag, Shelf.escape_append, hbrace, hname', hfixed]
  have hescaped := hstage name (Shelf.escape s) hname hlower hs.escape {} []
  have hnothing : (t.runStage .entities {} []).1 = [] := Text.substitute_nil _
  rw [List.append_nil, hnothing, List.append_nil, ← htarget] at hescaped
  have hall : Stage.entities.upTo = [.entities] := rfl
  rw [translateThrough, hsource, hall]
  simp only [runStages, hescaped]
  have hback := Shelf.unescape_escape_append (quotedTag name s) []
  rw [List.append_nil, Shelf.unescape_nil, List.append_nil] at hback
  rw [Shelf.restore_of_empty, hback]

/-- A condition in which entities are spelled out as text. -/
theorem entities_escape_entity :
    let s := "$a == '&amp;lt;' && $b != \x22&quot;\x22".toList
    "if".toList ≠ [] ∧ (∀ c ∈ "if".toList, 'a' ≤ c ∧ c ≤ 'z') ∧ IsArgument s ∧
      Html.escape s = "$a == &#039;&amp;amp;lt;&#039; &amp;&amp; $b != &quot;&amp;quot;&quot;".toList ∧
      (Translator.mk .twig "html".toList).translateThrough .entities (entityTag "if".toList (Html.escape s)) =
        quotedTag "if".toList s := by
  intro s
  have hs : IsArgument s := ⟨by decide, by decide, by decide⟩
  have hlower : ∀ c ∈ "if".toList, 'a' ≤ c ∧ c ≤ 'z' := List.forall_iff_forall_mem.1 (by decide)
  have hstage := (entities_escape ⟨.twig, "html".toList⟩).2 "if".toList s (by decide) hlower hs
  exact ⟨by decide, hlower, hs, by decide, hstage.2⟩

end Translator

end ViewBridge
