import ViewBridge.Proofs.Infix
import ViewBridge.Proofs.Rule
import ViewBridge.Proofs.Shelf
import ViewBridge.FilterName
/-!
# Placeholders under the rules

A placeholder is a word that no rule of expressions reads: its ends are foreign to all of them, and between
the ends are only digits and line breaks. So where an expression holds a placeholder, its translation does.

Results:
* `Solid.placeholder`: placeholders are such words.
* `carries_translate`: the translation of an expression.
* `carries_filterNames`: the translation of its filter names.
-/
namespace ViewBridge.Shelf

/-- A word of digits and line breaks between the two shield characters. -/
structure Solid (w : Chars) : Prop where
  ends : ∃ inner, w = opening :: (inner ++ [closing])
  inside : ∀ c ∈ w, c = opening ∨ c = closing ∨ Text.isDigit c = true ∨ c = '\n'

theorem Solid.placeholder (n : Nat) (body : Chars) : Solid (placeholder n body) where
  ends := ⟨Text.ofNat n ++ List.replicate (Text.occurrences '\n' body) '\n', rfl⟩
  inside _ := mem_placeholder

/-- The characters that no such word has. -/
def foreign (c : Char) : Bool :=
  c != opening && c != closing && !Text.isDigit c && c != '\n'

namespace Solid

variable {w : Chars}

theorem not_mem (h : Solid w) {c : Char} (hc : foreign c = true) : c ∉ w := by
  intro hw
  simp only [foreign, Bool.and_eq_true, bne_iff_ne, Bool.not_eq_true'] at hc
  rcases h.inside c hw with rfl | rfl | hd | rfl
  · exact hc.1.1.1 rfl
  · exact hc.1.1.2 rfl
  · rw [hd] at hc; cases hc.1.2
  · exact hc.2 rfl

theorem ne_nil (h : Solid w) : w ≠ [] := by
  obtain ⟨inner, rfl⟩ := h.ends
  exact List.cons_ne_nil _ _

/-- Such a word does not start in a text without the first shield character. -/
theorem infix_of_infix_append (h : Solid w) {s t : Chars} (hs : opening ∉ s) (hw : w <:+: s ++ t) :
    w <:+: t := by
  obtain ⟨inner, rfl⟩ := h.ends
  exact Text.infix_of_infix_append hs hw

theorem not_infix (h : Solid w) {s : Chars} (hs : opening ∉ s) : ¬ w <:+: s := by
  intro hw
  have hnil := h.infix_of_infix_append (t := []) hs (by simpa using hw)
  exact h.ne_nil (List.infix_nil.1 hnil)

/-- A part of the word in front of a text does not start with a foreign character. -/
theorem head_ne (h : Solid w) {v t : Chars} (hv : v ≠ []) (hsuffix : v <:+ w) {c : Char} {cs : Chars}
    (hc : foreign c = true) : v ++ t ≠ c :: cs := by
  obtain ⟨d, ds, rfl⟩ := List.exists_cons_of_ne_nil hv
  intro heq
  rw [List.cons_append, List.cons.injEq] at heq
  exact h.not_mem hc (heq.1 ▸ hsuffix.mem List.mem_cons_self)

theorem getLast_of_suffix (h : Solid w) {c : Char} (hc : [c] <:+ w) : c = closing := by
  obtain ⟨inner, rfl⟩ := h.ends
  obtain ⟨u, hu⟩ := hc
  rw [← List.cons_append] at hu
  exact (List.append_inj' hu rfl).2 |> List.head_eq_of_cons_eq

/-- No part of the word ends in front of a foreign character that comes behind other text. -/
theorem append_ne_append_cons (h : Solid w) {v t : Chars} (hv : v ≠ []) (hsuffix : v <:+ w) {before : Chars}
    (hb : closing ∉ before) {c : Char} (hc : foreign c = true) {rest : Chars} :
    v ++ t ≠ before ++ c :: rest := by
  have hlast : closing ∈ v := by
    obtain ⟨u, d, rfl⟩ := List.eq_nil_or_concat' v |>.resolve_left hv
    have := h.getLast_of_suffix ((List.suffix_append u [d]).trans hsuffix)
    simp [this]
  intro heq
  rcases List.append_eq_append_iff.1 heq with ⟨a, rfl, -⟩ | ⟨a, rfl, ha⟩
  · exact hb (List.mem_append_left a hlast)
  · cases a with
    | nil => exact hb (by simpa using hlast)
    | cons d ds =>
      have hd : c ∈ w := hsuffix.mem (by simp [(List.cons.inj ha).1])
      exact h.not_mem hc hd

theorem infix_dropWhile (h : Solid w) {p : Char → Bool} (hp : p opening = false) {s : Chars}
    (hs : w <:+: s) : w <:+: s.dropWhile p := by
  rw [← List.takeWhile_append_dropWhile (p := p) (l := s)] at hs
  refine h.infix_of_infix_append (fun hm => ?_) hs
  rw [List.mem_takeWhile_imp hm] at hp
  cases hp

theorem infix_dropEndWhile (h : Solid w) {p : Char → Bool} (hp : p closing = false) {s : Chars}
    (hs : w <:+: s) : w <:+: Text.dropEndWhile p s := by
  obtain ⟨inner, rfl⟩ := h.ends
  have hrev : (opening :: (inner ++ [closing])).reverse = closing :: (inner.reverse ++ [opening]) := by
    simp
  rw [← List.reverse_infix, Text.dropEndWhile, List.reverse_reverse, hrev]
  rw [← List.reverse_infix, hrev, ← List.takeWhile_append_dropWhile (p := p) (l := s.reverse)] at hs
  refine Text.infix_of_infix_append (fun hm => ?_) hs
  rw [List.mem_takeWhile_imp hm] at hp
  cases hp

end Solid

end ViewBridge.Shelf

namespace ViewBridge

/-- A function on texts that does not lose a word. -/
def Carries (w : Chars) (f : Chars → Chars) : Prop := ∀ s, w <:+: s → w <:+: f s

namespace Expression

open ViewBridge.Shelf (Solid)

variable {w : Chars}

/-! ## The rules one by one -/

theorem carries_substitute {find : Chars → Option (Chars × Chars)} (h : Solid w)
    (hcopy : ∀ v t, v ≠ [] → v <:+ w → find (v ++ t) = none)
    (hread : ∀ {s out rest}, find s = some (out, rest) → ∃ used, s = used ++ rest ∧ Shelf.opening ∉ used) :
    Carries w (Text.substitute find) := by
  intro s hs
  rw [Text.substitute_eq_substituteFrom]
  refine Text.infix_substituteFrom (fun _ v t hv hsuffix => ?_) ?_ ?_ hs
  · rw [Text.stateless, hcopy v t hv hsuffix, Option.map_none]
  · intro _ v out _ rest hf
    obtain ⟨used, rfl, -⟩ := hread (Text.stateless_eq_some hf)
    exact List.suffix_append used rest
  · intro _ v out _ rest _ hf hw
    obtain ⟨used, rfl, hused⟩ := hread (Text.stateless_eq_some hf)
    exact .inr (h.infix_of_infix_append hused hw)

/-- A rule that only reads at a foreign character, and no shield. -/
theorem carries_of_head {find : Chars → Option (Chars × Chars)} (h : Solid w)
    (hread : ∀ {s out rest}, find s = some (out, rest) →
      ∃ c used, Shelf.foreign c = true ∧ s = c :: (used ++ rest) ∧ Shelf.opening ∉ used) :
    Carries w (Text.substitute find) := by
  refine carries_substitute h (fun v t hv hsuffix => ?_) ?_
  · cases hf : find (v ++ t) with
    | none => rfl
    | some r =>
      obtain ⟨c, used, hc, heq, -⟩ := hread (show _ = some (r.1, r.2) from hf)
      exact absurd heq (h.head_ne hv hsuffix hc)
  · intro s out rest hf
    obtain ⟨c, used, hc, heq, hused⟩ := hread hf
    refine ⟨c :: used, heq, ?_⟩
    rw [List.mem_cons, not_or]
    refine ⟨?_, hused⟩
    rintro rfl
    cases hc

theorem opening_ne_of_nameChar {c : Char} (hc : Text.isNameChar c = true) : Shelf.opening ≠ c := by
  rintro rfl
  cases hc

theorem foreign_of_isQuote {q : Char} (hq : isQuote q = true) : Shelf.foreign q = true := by
  simp only [isQuote, Bool.or_eq_true, beq_iff_eq] at hq
  rcases hq with rfl | rfl <;> rfl

/-- Exchanging a text that starts with a foreign character and has no shield. -/
theorem carries_exchange (h : Solid w) {c : Char} {cs : Chars} (hc : Shelf.foreign c = true)
    (hcs : Shelf.opening ∉ cs) (new : Chars) : Carries w (Text.substitute (Text.exchange (c :: cs) new)) := by
  refine carries_of_head h fun {s out rest} hf => ?_
  exact ⟨c, cs, hc, (Text.exchange_eq_some hf).2, hcs⟩

theorem carries_readBareKey (h : Solid w) : Carries w (Text.substitute readBareKey) := by
  refine carries_of_head h fun {s out rest} hf => ?_
  obtain ⟨name, hname, rfl, -⟩ := readBareKey_eq_some hf
  refine ⟨'[', name ++ [']'], rfl, by simp, ?_⟩
  rw [List.mem_append, not_or]
  exact ⟨fun hm => absurd rfl (opening_ne_of_nameChar (hname _ hm)), by decide⟩

theorem carries_dropSigils (h : Solid w) : Carries w dropSigils := by
  intro s hs
  rw [dropSigils_eq]
  refine carries_of_head h (fun {s out rest} hf => ?_) s hs
  obtain ⟨c, hc, rfl, -⟩ := readSigil_eq_some hf
  exact ⟨'$', [c], rfl, rfl, by simpa using opening_ne_of_nameChar (Text.isNameChar_of_isNameStart hc)⟩

theorem carries_spellNot (h : Solid w) : Carries w spellNot := by
  intro s hs
  rw [spellNot_eq]
  refine carries_of_head h (fun {s out rest} hf => ?_) s hs
  exact ⟨'!', [], rfl, (readNot_eq_some hf).1, List.not_mem_nil⟩

theorem carries_readQuoteDot (h : Solid w) : Carries w (Text.substitute readQuoteDot) := by
  refine carries_of_head h fun {s out rest} hf => ?_
  obtain ⟨q, c, hq, hc, rfl, -⟩ := readQuoteDot_eq_some hf
  refine ⟨q, ['.', c], foreign_of_isQuote hq, rfl, ?_⟩
  have := opening_ne_of_nameChar (Text.isNameChar_of_isNameStart hc)
  simp only [List.mem_cons, List.not_mem_nil, or_false, not_or]
  exact ⟨by decide, this⟩

theorem carries_readDotQuote (h : Solid w) : Carries w (Text.substitute readDotQuote) := by
  have hjoins {c : Char} (hc : joinsDot c = true) : Shelf.opening ≠ c ∧ Shelf.closing ≠ c := by
    constructor <;> (rintro rfl; cases hc)
  refine carries_substitute h (fun v t hv hsuffix => ?_) ?_
  · cases hf : readDotQuote (v ++ t) with
    | none => rfl
    | some r =>
      obtain ⟨c, q, hc, -, heq, -⟩ := readDotQuote_eq_some (show _ = some (r.1, r.2) from hf)
      -- the character in front of the dot is the last one of the word, or the dot is in the word
      match v with
      | [d] =>
        simp only [List.cons_append, List.nil_append, List.cons.injEq] at heq
        exact absurd (heq.1 ▸ h.getLast_of_suffix hsuffix) (hjoins hc).2.symm
      | d :: e :: v =>
        simp only [List.cons_append, List.cons.injEq] at heq
        have he : e ∈ w := hsuffix.mem (by simp)
        exact absurd (heq.2.1 ▸ he) (h.not_mem rfl)
  · intro s out rest hf
    obtain ⟨c, q, hc, hq, rfl, -⟩ := readDotQuote_eq_some hf
    refine ⟨[c, '.', q], rfl, ?_⟩
    simp only [List.mem_cons, List.not_mem_nil, or_false, not_or]
    refine ⟨(hjoins hc).1, by decide, ?_⟩
    rintro rfl
    cases hq

theorem carries_readSpaced (h : Solid w) (c : Char) (cs : Chars) (hc : Shelf.foreign c = true)
    (hcs : Shelf.opening ∉ cs) (word : Chars) :
    Carries w (Text.substitute (readSpaced (c :: cs) word)) := by
  have hshield {u : Chars} (hu : ∀ d ∈ u, Text.isBlank d = true) :
      Shelf.opening ∉ u ∧ Shelf.closing ∉ u := by
    constructor <;> exact fun hm => by cases hu _ hm
  refine carries_substitute h (fun v t hv hsuffix => ?_) ?_
  · cases hf : readSpaced (c :: cs) word (v ++ t) with
    | none => rfl
    | some r =>
      obtain ⟨-, before, behind, hb, heq⟩ := readSpaced_eq_some (show _ = some (r.1, r.2) from hf)
      have hbefore := hshield fun d hd => hb d (List.mem_append_left _ hd)
      exact absurd (by simpa using heq) (h.append_ne_append_cons hv hsuffix hbefore.2 hc)
  · intro s out rest hf
    obtain ⟨-, before, behind, hb, rfl⟩ := readSpaced_eq_some hf
    refine ⟨before ++ (c :: cs) ++ behind, rfl, ?_⟩
    simp only [List.mem_append, List.mem_cons, not_or]
    refine ⟨⟨(hshield fun d hd => hb d (List.mem_append_left _ hd)).1, ?_, hcs⟩,
      (hshield fun d hd => hb d (List.mem_append_right _ hd)).1⟩
    rintro rfl
    cases hc

theorem carries_readLogicWord (h : Solid w) : Carries w (Text.substitute readLogicWord) := by
  have hword {word s out rest : Chars} (hword : Shelf.opening ∉ word)
      (hf : readWord word s = some (out, rest)) :
      ∃ used, s = ' ' :: (used ++ rest) ∧ Shelf.opening ∉ used := by
    obtain ⟨-, used, hused, rfl⟩ := readWord_eq_some hf
    refine ⟨used ++ [' '], by simp, ?_⟩
    rw [List.mem_append, not_or]
    exact ⟨fun hm => hword (hused ▸ List.mem_map_of_mem hm), by decide⟩
  refine carries_of_head h fun {s out rest} hf => ?_
  rw [readLogicWord_eq] at hf
  obtain ⟨used, hs, hused⟩ : ∃ used, s = ' ' :: (used ++ rest) ∧ Shelf.opening ∉ used := by
    rcases Option.or_eq_some_iff.1 hf with hf | ⟨-, hf⟩
    · exact hword (by decide) hf
    · exact hword (by decide) hf
  exact ⟨' ', used, rfl, hs, hused⟩

/-! ## Expressions -/

theorem readLiteral_ends (q : Char) (s : Chars) :
    (readLiteral q s).2 = [] ∨ ∃ body, (readLiteral q s).1 = body ++ [q] := by
  fun_induction readLiteral q s with
  | case1 => exact .inl rfl
  | case2 => exact .inl rfl
  | case3 d rest body tail hr ih =>
    rw [hr] at ih
    rcases ih with ih | ⟨b, hb⟩
    · exact .inl ih
    · exact .inr ⟨'\\' :: d :: b, congrArg ('\\' :: d :: ·) hb⟩
  | case4 => exact .inr ⟨[], rfl⟩
  | case5 c d rest hc hq body tail hr ih =>
    rw [hr] at ih
    rcases ih with ih | ⟨b, hb⟩
    · exact .inl ih
    · exact .inr ⟨c :: b, congrArg (c :: ·) hb⟩

theorem carries_mapUnquoted (h : Solid w) {rule : Chars → Chars} (hrule : Carries w rule) :
    Carries w (mapUnquoted rule) := by
  intro s hs
  induction hn : s.length using Nat.strongRecOn generalizing s with
  | ind n ih =>
    have hsplit := List.takeWhile_append_dropWhile (p := fun c => !isQuote c) (l := s)
    rw [mapUnquoted]
    split
    · rename_i hd
      rw [← hsplit, hd, List.append_nil] at hs
      exact hrule _ hs
    · rename_i q rest hd
      rw [hd] at hsplit
      have hq : isQuote q = true := by
        have := List.head?_dropWhile_not (fun c => !isQuote c) s
        simpa [hd] using this
      have hlen := congrArg List.length hsplit
      simp only [List.length_append, List.length_cons] at hlen
      rw [← hsplit, ← readLiteral_append q rest] at hs
      rcases Text.infix_append_cons (h.not_mem (foreign_of_isQuote hq)) hs with hs | hs
      · exact List.infix_append_of_infix_left (List.infix_append_of_infix_left (hrule _ hs))
      · have hliteral (h : w <:+: (readLiteral q rest).1) :
            w <:+: rule (s.takeWhile fun c => !isQuote c) ++ q :: (readLiteral q rest).1 ++
              mapUnquoted rule (readLiteral q rest).2 :=
          List.infix_append_of_infix_left (List.infix_append_of_infix_right (List.infix_cons h))
        rcases readLiteral_ends q rest with htail | ⟨body, hbody⟩
        · rw [htail, List.append_nil] at hs
          exact hliteral hs
        · rw [hbody, List.append_assoc, List.singleton_append] at hs
          rcases Text.infix_append_cons (h.not_mem (foreign_of_isQuote hq)) hs with hs | hs
          · exact hliteral (hbody ▸ List.infix_append_of_infix_left hs)
          · have hrest := readLiteral_length q rest
            exact List.infix_append_of_infix_right (ih (readLiteral q rest).2.length (by omega) _ hs rfl)

/-- The translation of an expression loses no placeholder. -/
theorem carries_translate (h : Solid w) : Carries w translate := by
  have hreplace (old : String) {new : String} {c : Char} {cs : Chars} (hold : old.toList = c :: cs)
      (hc : Shelf.foreign c = true) (hcs : Shelf.opening ∉ cs) {s : Chars} (hs : w <:+: s) :
      w <:+: Text.replace old.toList new.toList s := by
    rw [Text.replace_eq_substitute _ (by rw [hold]; exact List.cons_ne_nil c cs), hold]
    exact carries_exchange h hc hcs _ s hs
  intro s hs
  have hkeys := carries_mapUnquoted h (carries_readBareKey h) s hs
  have harrows : w <:+: dotArrows (dropSigils (quoteKeys s)) :=
    hreplace "->" rfl rfl (by decide) (carries_dropSigils h _ hkeys)
  have hjoins : w <:+: tildeJoins (dotArrows (dropSigils (quoteKeys s))) :=
    carries_readDotQuote h _ (carries_readQuoteDot h _ (hreplace " . " rfl rfl (by decide) harrows))
  have hnot := carries_mapUnquoted h (carries_spellNot h) _ hjoins
  have hwords : w <:+: spellLogic (negations (tildeJoins (dotArrows (dropSigils (quoteKeys s))))) :=
    carries_readLogicWord h _ (carries_readSpaced h '|' ['|'] rfl (by decide) _ _
      (carries_readSpaced h '&' ['&'] rfl (by decide) _ _ hnot))
  exact h.infix_dropEndWhile rfl (h.infix_dropWhile rfl hwords)

end Expression

namespace FilterName

open ViewBridge.Shelf (Solid)

variable {w : Chars}

/-- No filter name has a shield. -/
theorem segment_of_opening_mem (d : Dialect) {s : Chars} (h : Shelf.opening ∈ s) : segment d s = s := by
  have hnone : table.find? (fun entry => entry.1.toList == s) = none := by
    rw [List.find?_eq_none]
    intro entry hentry heq
    have hall : (table.all fun entry => !entry.1.toList.contains Shelf.opening) = true := by decide
    have := List.all_eq_true.1 hall entry hentry
    rw [eq_of_beq heq] at this
    simp [h] at this
  simp [segment, target?, hnone]

theorem infix_join_segments (h : Solid w) (d : Dialect) {parts : List Chars}
    (hw : w <:+: Text.join ['|'] parts) : w <:+: Text.join ['|'] (parts.map (segment d)) := by
  have hsegment {s : Chars} (hs : w <:+: s) : w <:+: segment d s := by
    obtain ⟨inner, rfl⟩ := h.ends
    rwa [segment_of_opening_mem d (hs.mem List.mem_cons_self)]
  induction parts with
  | nil => exact hw
  | cons p ps ih =>
    cases ps with
    | nil => exact hsegment hw
    | cons q qs =>
      rw [Text.join_cons _ _ (List.cons_ne_nil q qs), List.append_assoc, List.singleton_append] at hw
      rw [List.map_cons, Text.join_cons _ _ (by simp), List.append_assoc]
      rcases Text.infix_append_cons (h.not_mem rfl) hw with hw | hw
      · exact List.infix_append_of_infix_left (hsegment hw)
      · exact List.infix_append_of_infix_right (List.infix_cons (ih hw))

/-- Writing filter names in the words of a dialect loses no placeholder. -/
theorem carries_filterNames (h : Solid w) (d : Dialect) : Carries w (translate d) := by
  intro s hs
  rw [← Text.join_splitOn ['|'] s] at hs
  rw [translate_eq_bySegments, bySegments]
  cases hparts : Text.splitOn ['|'] s with
  | nil => exact absurd hparts (Text.splitOn_ne_nil _ _)
  | cons value filters =>
    rw [hparts] at hs
    cases filters with
    | nil => exact hs
    | cons p ps =>
      rw [Text.join_cons _ _ (List.cons_ne_nil p ps), List.append_assoc, List.singleton_append] at hs
      simp only
      rw [Text.join_cons _ _ (by simp), List.append_assoc]
      rcases Text.infix_append_cons (h.not_mem rfl) hs with hs | hs
      · exact List.infix_append_of_infix_left hs
      · exact List.infix_append_of_infix_right (List.infix_cons (infix_join_segments h d hs))

end FilterName

end ViewBridge
