import ViewBridge.Proofs.Call.Agreement
import ViewBridge.Proofs.Entity
/-!
# Break elements

A text that is not markup is escaped before break elements are put in front of its line breaks. The escape leaves no
opening bracket, so every bracket of the result opens a break element; and it leaves line breaks alone, so each of them
gets one. What was put in can therefore be told from the text, and taken out again.

Results:
* `breakLines_induction`: a property of texts and what becomes of them, line break by line break.
* `isBroken_breakLines`: where break elements stand behind a text without brackets.
* `replace_breakLines`: taking the break elements out again gives back the text.
* `call_nl2br_lossless`: both, of the helper and of the filter, on a value that is not marked safe.
-/
namespace ViewBridge

namespace Text

variable {old new s : Chars} {a c : Char}

/-- A word is replaced where it stands in front. -/
theorem replace_append (hold : old ≠ []) : replace old new (old ++ s) = new ++ replace old new s := by
  have hlength := List.length_pos_iff.2 hold
  rw [replace_eq_substitute new hold, replace_eq_substitute new hold]
  refine substitute_of_some ?_ ?_
  · rw [exchange, after?_append, Option.map_some]
  · rw [List.length_append]
    omega

/-- A character that does not start the word is copied. -/
theorem replace_cons_of_ne (ha : a ≠ c) : replace (a :: old) new (c :: s) = c :: replace (a :: old) new s := by
  rw [replace_eq_substitute new (List.cons_ne_nil _ _), replace_eq_substitute new (List.cons_ne_nil _ _)]
  refine substitute_cons_of_none ?_
  rw [exchange, after?, if_neg ha, Option.map_none]

/-- Where a text up to a character ends: at the first one, or behind it. -/
theorem prefix_append_cons {w x front : Chars} (hc : c ∉ w) (h : front ++ [c] <+: w ++ c :: x) :
    front = w ∨ ∃ front', front = w ++ c :: front' ∧ front' ++ [c] <+: x := by
  induction w generalizing front with
  | nil =>
    cases front with
    | nil => exact .inl rfl
    | cons d front =>
      obtain ⟨rfl, hx⟩ := List.cons_prefix_cons.1 h
      exact .inr ⟨front, rfl, hx⟩
  | cons e w ih =>
    rw [List.mem_cons, not_or] at hc
    cases front with
    | nil => exact absurd (List.cons_prefix_cons.1 h).1 hc.1
    | cons d front =>
      obtain ⟨rfl, hx⟩ := List.cons_prefix_cons.1 h
      rcases ih hc.2 hx with rfl | ⟨front', rfl, hx'⟩
      · exact .inl rfl
      · exact .inr ⟨front', rfl, hx'⟩

/-- Where a text from a character on starts: at the first one, or behind it. -/
theorem suffix_cons_append {w x behind : Chars} (hc : c ∉ w) (h : c :: behind <:+ c :: w ++ x) :
    behind = w ++ x ∨ c :: behind <:+ x := by
  rcases List.suffix_cons_iff.1 h with heq | h
  · exact .inl (List.cons.inj heq).2
  · rcases suffix_append_cases h with h | ⟨u, hu, hsuffix, heq⟩
    · exact .inr h
    · obtain ⟨d, u, rfl⟩ := List.exists_cons_of_ne_nil hu
      exact absurd (hsuffix.subset ((List.cons.inj heq).1 ▸ List.mem_cons_self)) hc

end Text

namespace Html

variable {s out front behind : Chars}

/-- A break element. -/
def breakElement : Chars := "<br />".toList

/-- Whether break elements stand in a text where the lines of another one end: every bracket opens a break element
directly in front of a line break, every line break has one, and there are as many as the other text has line breaks. -/
structure IsBroken (s out : Chars) : Prop where
  opening : ∀ behind, '<' :: behind <:+ out → "br />\n".toList <+: behind ∨ "br />\r\n".toList <+: behind
  ending : ∀ front, front ++ ['\n'] <+: out → breakElement <:+ front ∨ breakElement ++ ['\r'] <:+ front
  elements : out.count '<' = s.count '\n'
  lines : out.count '\n' = s.count '\n'

/-! ## Line break by line break -/

/-- A property of texts and what becomes of them: a line break takes a carriage return in front of it along. -/
theorem breakLines_induction {motive : Chars → Chars → Prop} (empty : motive [] [])
    (line : ∀ return_ rest, return_ = ['\r'] ∨ return_ = [] → motive rest (breakLines rest) →
      motive (return_ ++ '\n' :: rest) (breakElement ++ return_ ++ '\n' :: breakLines rest))
    (other : ∀ c rest, c ≠ '\n' → motive rest (breakLines rest) → motive (c :: rest) (c :: breakLines rest))
    (s : Chars) : motive s (breakLines s) := by
  fun_induction breakLines s with
  | case1 => exact empty
  | case2 rest ih => exact line ['\r'] rest (.inl rfl) ih
  | case3 rest ih => exact line [] rest (.inr rfl) ih
  | case4 c rest _ hc ih => exact other c rest hc ih

theorem count_bracket_breakLines (hs : '<' ∉ s) : (breakLines s).count '<' = s.count '\n' := by
  have helement : breakElement.count '<' = 1 := by decide
  revert hs
  refine breakLines_induction (motive := fun s out => '<' ∉ s → out.count '<' = s.count '\n') (fun _ => rfl) ?_ ?_ s
  · rintro return_ rest (rfl | rfl) ih hs <;> simp_all [List.count_append, Nat.add_comm 1]
  · intro c rest hc ih hs
    rw [List.mem_cons, not_or] at hs
    rw [List.count_cons_of_ne (Ne.symm hs.1), List.count_cons_of_ne hc, ih hs.2]

theorem count_line_breakLines (s : Chars) : (breakLines s).count '\n' = s.count '\n' := by
  have helement : breakElement.count '\n' = 0 := by decide
  refine breakLines_induction (motive := fun s out => out.count '\n' = s.count '\n') rfl ?_ ?_ s
  · rintro return_ rest (rfl | rfl) ih <;> simp [List.count_append, helement, ih]
  · intro c rest hc ih
    rw [List.count_cons_of_ne hc, List.count_cons_of_ne hc, ih]

/-- Every bracket opens a break element in front of a line break. -/
theorem opening_breakLines (hs : '<' ∉ s) (h : '<' :: behind <:+ breakLines s) :
    "br />\n".toList <+: behind ∨ "br />\r\n".toList <+: behind := by
  revert hs h
  refine breakLines_induction (motive := fun s out => '<' ∉ s → '<' :: behind <:+ out →
    "br />\n".toList <+: behind ∨ "br />\r\n".toList <+: behind) ?_ ?_ ?_ s
  · intro _ h
    cases List.suffix_nil.1 h
  · rintro return_ rest (rfl | rfl) ih hs h
    · rcases Text.suffix_cons_append (w := "br />\r\n".toList) (x := breakLines rest) (by decide) h with rfl | h
      · exact .inr (List.prefix_append _ _)
      · exact ih (by simp_all) h
    · rcases Text.suffix_cons_append (w := "br />\n".toList) (x := breakLines rest) (by decide) h with rfl | h
      · exact .inl (List.prefix_append _ _)
      · exact ih (by simp_all) h
  · intro c rest hc ih hs h
    rw [List.mem_cons, not_or] at hs
    rcases List.suffix_cons_iff.1 h with heq | h
    · exact absurd (List.cons.inj heq).1 hs.1
    · exact ih hs.2 h

/-- Every line break has a break element in front. -/
theorem ending_breakLines (h : front ++ ['\n'] <+: breakLines s) :
    breakElement <:+ front ∨ breakElement ++ ['\r'] <:+ front := by
  revert h front
  refine breakLines_induction (motive := fun _ out => ∀ {front : Chars}, front ++ ['\n'] <+: out →
    breakElement <:+ front ∨ breakElement ++ ['\r'] <:+ front) ?_ ?_ ?_ s
  · intro front h
    exact absurd (List.prefix_nil.1 h) (List.concat_ne_nil _ _)
  · intro return_ rest hreturn ih front h
    have hnone : '\n' ∉ breakElement ++ return_ := by rcases hreturn with rfl | rfl <;> decide
    rcases Text.prefix_append_cons hnone h with rfl | ⟨front', rfl, h'⟩
    · rcases hreturn with rfl | rfl
      · exact .inr List.suffix_rfl
      · exact .inl (by rw [List.append_nil])
    · have hbehind : front' <:+ breakElement ++ return_ ++ '\n' :: front' :=
        (List.suffix_cons _ _).trans (List.suffix_append _ _)
      exact (ih h').imp (·.trans hbehind) (·.trans hbehind)
  · intro c rest hc ih front h
    cases front with
    | nil => exact absurd (List.cons_prefix_cons.1 h).1.symm hc
    | cons d front =>
      have hbehind : front <:+ d :: front := List.suffix_cons _ _
      exact (ih (List.cons_prefix_cons.1 h).2).imp (·.trans hbehind) (·.trans hbehind)

theorem isBroken_breakLines (hs : '<' ∉ s) : IsBroken s (breakLines s) where
  opening _ h := opening_breakLines hs h
  ending _ h := ending_breakLines h
  elements := count_bracket_breakLines hs
  lines := count_line_breakLines s

/-- Taking the break elements out again gives back the text. -/
theorem replace_breakLines (hs : '<' ∉ s) : Text.replace breakElement [] (breakLines s) = s := by
  have helement (rest : Chars) :
      Text.replace breakElement [] (breakElement ++ rest) = Text.replace breakElement [] rest :=
    Text.replace_append (List.cons_ne_nil _ _)
  have hchar {c : Char} (hc : '<' ≠ c) (rest : Chars) :
      Text.replace breakElement [] (c :: rest) = c :: Text.replace breakElement [] rest := Text.replace_cons_of_ne hc
  revert hs
  refine breakLines_induction (motive := fun s out => '<' ∉ s → Text.replace breakElement [] out = s) ?_ ?_ ?_ s
  · intro _
    have hne : breakElement ≠ [] := List.cons_ne_nil _ _
    rw [Text.replace_eq_substitute [] hne, Text.substitute_nil]
  · rintro return_ rest (rfl | rfl) ih hs
    · rw [List.append_assoc, helement, List.singleton_append, List.singleton_append, hchar (by decide),
        hchar (by decide), ih (by simp_all)]
    · rw [List.append_nil, helement, List.nil_append, hchar (by decide), ih (by simp_all)]
  · intro c rest _ ih hs
    rw [List.mem_cons, not_or] at hs
    rw [hchar hs.1, ih hs.2]

/-! ## What was escaped -/

theorem bracket_not_mem_escape (s : Chars) : '<' ∉ escape s := by
  intro h
  obtain ⟨c, -, hc⟩ := List.mem_flatMap.1 h
  have hspecial : ∀ c ∈ special, '<' ∉ entity c := List.forall_iff_forall_mem.1 (by decide)
  by_cases hmem : c ∈ special
  · exact hspecial c hmem hc
  · rw [entity_of_not_special hmem, List.mem_singleton] at hc
    exact hmem (hc ▸ by decide)

theorem count_line_escape (s : Chars) : (escape s).count '\n' = s.count '\n' := by
  induction s with
  | nil => rfl
  | cons c s ih =>
    have hspecial : ∀ c ∈ special, (entity c).count '\n' = 0 ∧ c ≠ '\n' := List.forall_iff_forall_mem.1 (by decide)
    rw [escape_cons, List.count_append, ih]
    by_cases hmem : c ∈ special
    · rw [(hspecial c hmem).1, List.count_cons_of_ne (hspecial c hmem).2, Nat.zero_add]
    · rw [entity_of_not_special hmem, ← List.count_append, List.singleton_append]

end Html

/-! ## The helper and the filter -/

namespace Helper

/-- What becomes of a value that is not marked safe: markup with break elements where the lines of its text end, and
with no other bracket. Without them, and with the entities decoded, it is the text again. -/
theorem call_nl2br_lossless (c : HelperContext) (mode : Template.Escaping) {v : Value} (hv : v.isSafe = false) :
    ∃ out, call c .nl2br [v] = .ok (.safeText out) ∧
      Template.Filter.apply mode "nl2br".toList [v] [] = .ok (.safeText out) ∧
      Html.IsBroken v.legacyText out ∧
      Translator.decodeEntities (Text.replace Html.breakElement [] out) = v.legacyText := by
  have hbracket := Html.bracket_not_mem_escape v.legacyText
  have hmade : withBreaks v = .safeText (Html.breakLines (Html.escape v.legacyText)) := by
    rw [withBreaks, hv]
    rfl
  have hfind : Template.Filter.find? mode "nl2br".toList = some (plain withBreaks) := rfl
  have hbroken := Html.isBroken_breakLines hbracket
  refine ⟨_, ?_, ?_, ⟨hbroken.opening, hbroken.ending, ?_, ?_⟩, ?_⟩
  · rw [← hmade]
    rfl
  · rw [LoopTemplate.apply_of_find? hfind, ← hmade]
    rfl
  · rw [hbroken.elements, Html.count_line_escape]
  · rw [hbroken.lines, Html.count_line_escape]
  · rw [Html.replace_breakLines hbracket, Translator.decode_escape]

/-- Mixed line ends, markup, and a text that looks like an entity. -/
theorem call_nl2br_lossless_mixed :
    (Value.ofChars "<b>\r\r\n&lt;\n".toList).isSafe = false ∧
    ∃ out, call ⟨[], [], ⟨0, 0⟩⟩ .nl2br [.ofChars "<b>\r\r\n&lt;\n".toList] = .ok (.safeText out) ∧
      out = "&lt;b&gt;\r<br />\r\n&amp;lt;<br />\n".toList ∧
      Translator.decodeEntities (Text.replace Html.breakElement [] out) = "<b>\r\r\n&lt;\n".toList := by
  obtain ⟨out, hcall, -, -, hdecode⟩ := call_nl2br_lossless ⟨[], [], ⟨0, 0⟩⟩ .markup
    (v := .ofChars "<b>\r\r\n&lt;\n".toList) rfl
  have hrun : call ⟨[], [], ⟨0, 0⟩⟩ .nl2br [.ofChars "<b>\r\r\n&lt;\n".toList] =
      .ok (.safeText "&lt;b&gt;\r<br />\r\n&amp;lt;<br />\n".toList) := rfl
  obtain ⟨-, hout⟩ := Value.text.inj (Except.ok.inj (hcall.symm.trans hrun))
  exact ⟨rfl, out, hcall, hout, hdecode⟩

end Helper
end ViewBridge
