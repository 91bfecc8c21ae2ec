import ViewBridge.Proofs.Break.Sound
import ViewBridge.Proofs.Recoding.Tag
/-!
# Closing characters

A text is ended if every closing character in it ends a placeholder: an opening character, digits and line breaks.
Soundness says what stands behind an opening character, this what stands in front of a closing one. Ended texts may be
cut off anywhere, and may be entered wherever the text in front does not stop inside a placeholder.

Results:
* `Ended.append`, `Ended.left`, `Ended.right`: putting together and cutting.
* `ended_substituteFrom`: passes that read past a foreign character and write ended text.
* `ended_expression`, `ended_filterNames`: expressions and filter names.
-/
namespace ViewBridge

namespace Shelf

/-- Every closing character stands behind digits and line breaks, at least one, behind an opening character. -/
def Ended (s : Chars) : Prop :=
  ∀ u v, s = u ++ closing :: v →
    ∃ u' w, u = u' ++ opening :: w ∧ w ≠ [] ∧ ∀ c ∈ w, Text.isDigit c = true ∨ c = '\n'

variable {s t : Chars}

theorem isMute_shields : isMute opening = true ∧ isMute closing = true := by decide +kernel

theorem opening_not_mem_of_isSpoken (h : IsSpoken s) : opening ∉ s := fun hm =>
  ne_of_isMute isMute_shields.1 (h _ hm) rfl

theorem closing_not_mem_of_isSpoken (h : IsSpoken s) : closing ∉ s := fun hm =>
  ne_of_isMute isMute_shields.2 (h _ hm) rfl

/-! ## Texts that stop outside of placeholders -/

theorem hangs_of_not_mem (h : opening ∉ s) : hangs false s = false := escape_eq_self h ▸ hangs_escape s

theorem hangs_of_foreign {inside : Bool} {c : Char} (hc : foreign c = true) (hmem : c ∈ s) (ho : opening ∉ s) :
    hangs inside s = false := by
  obtain ⟨u, v, rfl⟩ := List.append_of_mem hmem
  have hchar : c ≠ opening ∧ Text.isDigit c = false ∧ c ≠ '\n' := by
    simp only [foreign, Bool.and_eq_true, bne_iff_ne, Bool.not_eq_true'] at hc
    exact ⟨hc.1.1.1, hc.1.2, hc.2⟩
  rw [List.append_cons, hangs_append, hangs_concat _ _ hchar]
  exact hangs_of_not_mem fun hm => ho (List.mem_append_right _ (List.mem_cons_of_mem _ hm))

namespace Ended

theorem of_not_mem (h : closing ∉ s) : Ended s := by
  rintro u v rfl
  exact absurd (by simp) h

theorem of_isSpoken (h : IsSpoken s) : Ended s := of_not_mem (closing_not_mem_of_isSpoken h)

theorem of_tagChars (h : s.all isTagChar = true) : Ended s := of_isSpoken (isSpoken_of_tagChars h)

theorem left (h : Ended (s ++ t)) : Ended s := by
  rintro u v rfl
  exact h u (v ++ t) (by simp)

theorem append (hs : Ended s) (ht : Ended t) : Ended (s ++ t) := by
  intro u v h
  rcases List.append_eq_append_iff.1 h with ⟨a, rfl, ha⟩ | ⟨b, rfl, hb⟩
  · obtain ⟨u', w, rfl, hw⟩ := ht a v ha
    exact ⟨s ++ u', w, by simp, hw⟩
  · cases b with
    | nil =>
      obtain ⟨u', w, hnil, -⟩ := ht [] v hb.symm
      simp at hnil
    | cons c cs =>
      obtain ⟨rfl, -⟩ := List.cons.inj hb
      exact hs u cs rfl

/-- The rest of an ended text behind a text that does not stop inside a placeholder. -/
theorem right (h : Ended (s ++ t)) (hs : hangs false s = false) : Ended t := by
  rintro u v rfl
  obtain ⟨u', w, hu, hne, hw⟩ := h (s ++ u) v (by simp)
  rcases List.append_eq_append_iff.1 hu with ⟨a, rfl, ha⟩ | ⟨b, rfl, hb⟩
  · exact ⟨a, w, ha, hne, hw⟩
  · cases b with
    | nil => exact ⟨[], w, hb.symm, hne, hw⟩
    | cons c cs =>
      obtain ⟨rfl, rfl⟩ := List.cons.inj hb
      have htrue : hangs true cs = true := hangs_of_forall fun c hc => hw c (List.mem_append_left _ hc)
      rw [hangs_append, hangs, List.foldl_cons, beq_self_eq_true, Bool.true_or] at hs
      exact absurd (htrue.symm.trans hs) (by decide)

theorem cons {c : Char} (hc : c ≠ closing) (h : Ended s) : Ended (c :: s) :=
  append (s := [c]) (of_not_mem (by simpa using Ne.symm hc)) h

/-- What stands behind a foreign character, with it and without it. -/
theorem behind {c : Char} (h : Ended (s ++ c :: t)) (hc : foreign c = true) : Ended t ∧ Ended (c :: t) := by
  have hchar : c ≠ opening ∧ c ≠ closing ∧ Text.isDigit c = false ∧ c ≠ '\n' := by
    simp only [foreign, Bool.and_eq_true, bne_iff_ne, Bool.not_eq_true'] at hc
    exact ⟨hc.1.1.1, hc.1.1.2, hc.1.2, hc.2⟩
  rw [List.append_cons] at h
  have ht := h.right (hangs_concat _ _ ⟨hchar.1, hchar.2.2⟩)
  exact ⟨ht, ht.cons hchar.2.1⟩

theorem trimWhile {p : Char → Bool} (hp : p opening = false) (h : Ended s) : Ended (Text.trimWhile p s) := by
  have hstart : Ended (s.dropWhile p) := by
    rw [← List.takeWhile_append_dropWhile (p := p) (l := s)] at h
    refine h.right (hangs_of_not_mem fun hm => ?_)
    rw [List.mem_takeWhile_imp hm] at hp
    cases hp
  have hsplit : Text.trimWhile p s ++ ((s.dropWhile p).reverse.takeWhile p).reverse = s.dropWhile p := by
    rw [Text.trimWhile, Text.dropEndWhile, ← List.reverse_append, List.takeWhile_append_dropWhile, List.reverse_reverse]
  rw [← hsplit] at hstart
  exact hstart.left

end Ended

/-! ## Passes -/

/-- A pass that reads past a foreign character, and writes ended text for ended text, leaves ended text. -/
theorem ended_substituteFrom {σ : Type} {find : σ → Chars → Option (Chars × σ × Chars)}
    (hread : ∀ {st s out st' rest}, find st s = some (out, st', rest) → ∃ used, used ≠ [] ∧ s = used ++ rest ∧
      (∀ inside, hangs inside used = false) ∧ ∀ front, Ended (front ++ s) → Ended out)
    (st : σ) (s front : Chars) (h : Ended (front ++ s)) :
    Ended (front ++ (Text.substituteFrom find st s).1) := by
  induction hn : s.length using Nat.strongRecOn generalizing s st front with
  | ind n ih =>
    cases hf : find st s with
    | some q =>
      obtain ⟨out, st', rest⟩ := q
      obtain ⟨used, hne, rfl, hused, hout⟩ := hread hf
      have hlen : rest.length < (used ++ rest).length := by
        have := List.length_pos_iff.2 hne
        rw [List.length_append]
        omega
      have hrest : Ended rest := by
        rw [← List.append_assoc] at h
        exact h.right (by rw [hangs_append, hused])
      rw [Text.substituteFrom_of_some hf hlen]
      exact h.left.append ((hout front h).append (ih rest.length (by omega) st' rest [] hrest rfl))
    | none =>
      cases s with
      | nil => rwa [Text.substituteFrom_nil]
      | cons c cs =>
        rw [List.length_cons] at hn
        rw [Text.substituteFrom_cons_of_none hf, List.append_cons]
        exact ih cs.length (by omega) st cs (front ++ [c]) (by rwa [← List.append_cons]) rfl

/-- A rule that reads spoken characters past a foreign one, and writes spoken characters. -/
def Speaks (find : Chars → Option (Chars × Chars)) : Prop :=
  ∀ {s out rest}, find s = some (out, rest) →
    IsSpoken out ∧ ∃ used, s = used ++ rest ∧ IsSpoken used ∧ ∃ c ∈ used, foreign c = true

theorem ended_substitute {find : Chars → Option (Chars × Chars)} (h : Speaks find) (hs : Ended s) :
    Ended (Text.substitute find s) := by
  rw [Text.substitute_eq_substituteFrom]
  refine ended_substituteFrom (fun {st s out st' rest} hf => ?_) () s [] hs
  obtain ⟨hout, used, hused, hspoken, c, hmem, hc⟩ := h (Text.stateless_eq_some hf)
  exact ⟨used, List.ne_nil_of_mem hmem, hused,
    fun _ => hangs_of_foreign hc hmem (opening_not_mem_of_isSpoken hspoken), fun _ _ => .of_isSpoken hout⟩

end Shelf

namespace Expression

open ViewBridge.Shelf (Ended Speaks foreign ended_substitute)

variable {s : Chars}

/-! ## The rules one by one -/

theorem isMute_of_isBlank {c : Char} (h : Text.isBlank c = true) : isMute c = false := by simp [isMute, h]

theorem isMute_of_isNameStart {c : Char} (h : Text.isNameStart c = true) : isMute c = false :=
  isMute_of_isNameChar (Text.isNameChar_of_isNameStart h)

theorem speaks_exchange {c : Char} {cs new : Chars} (hc : foreign c = true) (hold : IsSpoken (c :: cs))
    (hnew : IsSpoken new) : Speaks (Text.exchange (c :: cs) new) := by
  intro s out rest hf
  obtain ⟨rfl, rfl⟩ := Text.exchange_eq_some hf
  exact ⟨hnew, c :: cs, rfl, hold, c, List.mem_cons_self, hc⟩

theorem speaks_readBareKey : Speaks readBareKey := by
  intro s out rest hf
  obtain ⟨name, hname, rfl, rfl⟩ := readBareKey_eq_some hf
  have hspoken : IsSpoken name := fun c hc => isMute_of_isNameChar (hname c hc)
  refine ⟨(IsSpoken.append (by decide) hspoken).append (by decide), '[' :: (name ++ [']']), by simp, ?_, '[', by simp, rfl⟩
  exact .cons (by decide) (hspoken.append (by decide))

theorem speaks_readSigil : Speaks readSigil := by
  intro s out rest hf
  obtain ⟨c, hc, rfl, rfl⟩ := readSigil_eq_some hf
  have hspoken : IsSpoken [c] := .cons (isMute_of_isNameStart hc) (by decide)
  exact ⟨hspoken, ['$', c], rfl, .cons (by decide) hspoken, '$', List.mem_cons_self, rfl⟩

theorem speaks_readNot : Speaks readNot := by
  intro s out rest hf
  obtain ⟨rfl, rfl⟩ := readNot_eq_some hf
  exact ⟨by decide, ['!'], rfl, by decide, '!', List.mem_cons_self, rfl⟩

theorem speaks_readQuoteDot : Speaks readQuoteDot := by
  intro s out rest hf
  obtain ⟨q, c, hq, hc, rfl, rfl⟩ := readQuoteDot_eq_some hf
  have hquote := isMute_of_isQuote hq
  have hname : IsSpoken [c] := .cons (isMute_of_isNameStart hc) (by decide)
  exact ⟨.cons hquote (IsSpoken.append (by decide) hname), [q, '.', c], rfl, .cons hquote (.cons (by decide) hname), q,
    List.mem_cons_self, foreign_of_isQuote hq⟩

theorem speaks_readDotQuote : Speaks readDotQuote := by
  intro s out rest hf
  obtain ⟨c, q, hc, hq, rfl, rfl⟩ := readDotQuote_eq_some hf
  have hjoin : isMute c = false := by
    cases hm : isMute c with
    | false => rfl
    | true => rw [Recoding.joinsDot_of_isMute hm] at hc; cases hc
  have hquote : IsSpoken [q] := .cons (isMute_of_isQuote hq) (by decide)
  exact ⟨.cons hjoin (IsSpoken.append (by decide) hquote), [c, '.', q], rfl, .cons hjoin (.cons (by decide) hquote), q,
    by simp, foreign_of_isQuote hq⟩

theorem speaks_readSpaced (c : Char) (cs : Chars) {word : Chars} (hc : foreign c = true) (hold : IsSpoken (c :: cs))
    (hword : IsSpoken word) : Speaks (readSpaced (c :: cs) word) := by
  intro s out rest hf
  obtain ⟨rfl, before, behind, hblank, rfl⟩ := readSpaced_eq_some hf
  have hblanks : IsSpoken (before ++ behind) := fun d hd => isMute_of_isBlank (hblank d hd)
  refine ⟨hword, before ++ (c :: cs) ++ behind, rfl, fun d hd => ?_, c, by simp, hc⟩
  simp only [List.mem_append] at hd
  rcases hd with (hd | hd) | hd
  · exact hblanks d (List.mem_append_left _ hd)
  · exact hold d hd
  · exact hblanks d (List.mem_append_right _ hd)

theorem isSpoken_of_map_toLower {used word : Chars} (h : used.map Char.toLower = word) (hword : IsSpoken word) :
    IsSpoken used := by
  intro c hc
  cases hm : isMute c with
  | false => rfl
  | true =>
    have hlower : c.toLower ∈ word := h ▸ List.mem_map_of_mem hc
    rw [Recoding.toLower_of_isMute hm] at hlower
    rw [hword c hlower] at hm
    cases hm

theorem speaks_readLogicWord : Speaks readLogicWord := by
  intro s out rest hf
  have hread {word : Chars} (hword : IsSpoken word) (hf : readWord word s = some (out, rest)) :
      IsSpoken out ∧ ∃ used, s = used ++ rest ∧ IsSpoken used ∧ ∃ c ∈ used, foreign c = true := by
    obtain ⟨rfl, used, hused, rfl⟩ := readWord_eq_some hf
    have hend {w : Chars} (hw : IsSpoken w) : IsSpoken (' ' :: (w ++ [' '])) := .cons (by decide) (hw.append (by decide))
    exact ⟨hend hword, ' ' :: (used ++ [' ']), by simp, hend (isSpoken_of_map_toLower hused hword), ' ',
      List.mem_cons_self, rfl⟩
  rw [readLogicWord_eq] at hf
  rcases Option.or_eq_some_iff.1 hf with hf | ⟨-, hf⟩
  · exact hread (by decide) hf
  · exact hread (by decide) hf

/-! ## Expressions -/

theorem ended_replace (old new : Chars) {c : Char} {cs : Chars} (hold : old = c :: cs) (hc : foreign c = true)
    (hspoken : IsSpoken old) (hnew : IsSpoken new) (h : Ended s) : Ended (Text.replace old new s) := by
  subst hold
  rw [Text.replace_eq_substitute _ (List.cons_ne_nil c cs)]
  exact ended_substitute (speaks_exchange hc hspoken hnew) h

theorem ended_mapUnquoted (rule : Chars → Chars) (hrule : ∀ {s}, Ended s → Ended (rule s)) (h : Ended s) :
    Ended (mapUnquoted rule s) := by
  induction hn : s.length using Nat.strongRecOn generalizing s with
  | ind n ih =>
    have hsplit := List.takeWhile_append_dropWhile (p := fun c => !isQuote c) (l := s)
    rw [mapUnquoted]
    split
    · rename_i hd
      rw [hd, List.append_nil] at hsplit
      rw [hsplit]
      exact hrule h
    · rename_i q rest hd
      rw [hd] at hsplit
      have hq : isQuote q = true := by
        have := List.head?_dropWhile_not (fun c => !isQuote c) s
        simpa [hd] using this
      have hlen := congrArg List.length hsplit
      simp only [List.length_append, List.length_cons] at hlen
      have hshorter := readLiteral_length q rest
      have hliteral := readLiteral_append q rest
      generalize s.takeWhile (fun c => !isQuote c) = plain at hsplit hlen ⊢
      rw [← hsplit] at h
      obtain ⟨hrest, -⟩ := h.behind (foreign_of_isQuote hq)
      rw [← hliteral] at hrest
      -- the literal ends with its quote, or nothing is left behind it
      have htail : Ended (readLiteral q rest).2 := by
        rcases readLiteral_ends q rest with hnil | ⟨body, hbody⟩
        · rw [hnil]
          exact .of_isSpoken (by decide)
        · rw [hbody, List.append_assoc] at hrest
          exact (hrest.behind (foreign_of_isQuote hq)).1
      have hquote : q ≠ Shelf.closing := by
        rintro rfl
        cases hq
      have hmapped := ih (readLiteral q rest).2.length (by omega) htail rfl
      rw [List.append_assoc, List.cons_append]
      exact (hrule h.left).append ((hrest.left.append hmapped).cons hquote)

/-- The translation of an ended expression is ended. -/
theorem ended_expression (h : Ended s) : Ended (translate s) := by
  have hkeys : Ended (quoteKeys s) := ended_mapUnquoted _ (ended_substitute speaks_readBareKey) h
  have hsigils : Ended (dropSigils (quoteKeys s)) := dropSigils_eq (quoteKeys s) ▸ ended_substitute speaks_readSigil hkeys
  have harrows := ended_replace "->".toList ".".toList rfl rfl (by decide) (by decide) hsigils
  have hdots := ended_replace " . ".toList " ~ ".toList rfl rfl (by decide) (by decide) harrows
  have hjoins := ended_substitute speaks_readDotQuote (ended_substitute speaks_readQuoteDot hdots)
  have hnot := ended_mapUnquoted spellNot
    (fun {s} h => spellNot_eq s ▸ ended_substitute speaks_readNot h) hjoins
  have hand := ended_substitute (speaks_readSpaced '&' ['&'] rfl (by decide) (show IsSpoken " and ".toList by decide)) hnot
  have hor := ended_substitute (speaks_readSpaced '|' ['|'] rfl (by decide) (show IsSpoken " or ".toList by decide)) hand
  exact (ended_substitute speaks_readLogicWord hor).trimWhile rfl

end Expression

namespace FilterName

open ViewBridge.Shelf (Ended)

variable {s : Chars}

theorem ended_segment (d : Dialect) (h : Ended s) : Ended (segment d s) := by
  unfold segment target?
  split
  · exact h
  · rename_i legacy found hfind
    obtain ⟨-, -, hname⟩ := names_of_mem_table (List.mem_of_find?_eq_some hfind)
    split
    · exact .of_isSpoken (s := "tojson".toList) (isSpoken_of_tagChars (by decide))
    · exact .of_not_mem fun hm => absurd (hname _ hm) (by decide)

theorem ended_join_segments (d : Dialect) {parts : List Chars} (h : Ended (Text.join ['|'] parts)) :
    Ended (Text.join ['|'] (parts.map (segment d))) := by
  induction parts with
  | nil => exact h
  | cons p ps ih =>
    cases ps with
    | nil => exact ended_segment d h
    | cons q qs =>
      rw [join_bar_cons p (List.cons_ne_nil q qs)] at h
      rw [List.map_cons, join_bar_cons (segment d p) (show (q :: qs).map (segment d) ≠ [] from List.cons_ne_nil _ _)]
      exact (ended_segment d h.left).append ((ih (h.behind rfl).1).cons (by decide))

/-- So are filter names in the words of a dialect. -/
theorem ended_filterNames (d : Dialect) (h : Ended s) : Ended (translate d s) := by
  rw [translate_eq_bySegments, bySegments]
  have hjoin := Text.join_splitOn ['|'] s
  generalize Text.splitOn ['|'] s = parts at hjoin ⊢
  subst hjoin
  cases parts with
  | nil => exact h
  | cons value parts =>
    cases parts with
    | nil => exact h
    | cons p ps =>
      simp only [List.map_cons]
      rw [join_bar_cons value (List.cons_ne_nil p ps)] at h
      rw [join_bar_cons value (List.cons_ne_nil (segment d p) (ps.map (segment d)))]
      exact h.left.append ((ended_join_segments d (h.behind rfl).1).cons (by decide))

end FilterName
end ViewBridge
