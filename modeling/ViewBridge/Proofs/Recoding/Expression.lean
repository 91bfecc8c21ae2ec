import ViewBridge.Proofs.Recoding.Text
import ViewBridge.Proofs.Rule
import ViewBridge.FilterName
/-!
# Recoded expressions

Every rule of expressions commutes with recodings of mute characters, so the translation of an expression
does, and the same holds for the names of filters.

Results:
* `mapUnquoted_text`: a rule for unquoted text.
* `translate_text`: expressions.
* `filterNames_text`: filter names.
-/
namespace ViewBridge.Recoding

open Expression

variable (r : Recoding)

/-! ## The rules as steps of reading -/

theorem readBareKey_eq (s : Chars) :
    readBareKey s = (Text.after? ['['] s).bind fun s => (next? Text.isNameStart s).bind fun (c, s) =>
      (Text.after? [']'] (s.dropWhile Text.isNameChar)).map fun rest =>
        ("['".toList ++ c :: s.takeWhile Text.isNameChar ++ "']".toList, rest) := by
  rcases s with _ | ⟨b, _ | ⟨c, rest⟩⟩
  · rfl
  · by_cases hb : b = '[' <;> simp [readBareKey, Text.after?, next?, hb, Ne.symm]
  · by_cases hb : b = '['
    · subst hb
      simp only [readBareKey, Text.after?, next?, ↓reduceIte, Option.bind_some]
      split
      · rw [Option.bind_some]
        rcases rest.dropWhile Text.isNameChar with _ | ⟨e, tail⟩
        · rfl
        · by_cases he : e = ']' <;> simp [Text.after?, he, Ne.symm]
      · rfl
    · simp [readBareKey, Text.after?, hb, Ne.symm hb]

theorem readSigil_eq (s : Chars) :
    readSigil s = (Text.after? ['$'] s).bind fun s =>
      (next? Text.isNameStart s).map fun (c, rest) => ([c], rest) := by
  rcases s with _ | ⟨b, _ | ⟨c, rest⟩⟩
  · rfl
  · by_cases hb : b = '$' <;> simp [readSigil, Text.after?, next?, hb, Ne.symm]
  · by_cases hb : b = '$'
    · simp only [hb, readSigil, Text.after?, next?, ↓reduceIte, Option.bind_some]
      split <;> rfl
    · simp [readSigil, Text.after?, hb, Ne.symm hb]

theorem readNot_eq (s : Chars) :
    readNot s = (Text.after? ['!'] s).bind fun s =>
      if s.head? = some '=' then none else some ("not ".toList, s) := by
  rcases s with _ | ⟨b, rest⟩
  · rfl
  · by_cases hb : b = '!' <;> simp [readNot, Text.after?, hb, Ne.symm]

theorem readQuoteDot_eq (s : Chars) :
    readQuoteDot s = (next? isQuote s).bind fun (q, s) => (Text.after? ['.'] s).bind fun s =>
      (next? Text.isNameStart s).map fun (c, rest) => (q :: " ~ ".toList ++ [c], rest) := by
  rcases s with _ | ⟨q, _ | ⟨b, _ | ⟨c, rest⟩⟩⟩
  · rfl
  · by_cases hq : isQuote q <;> simp [readQuoteDot, next?, Text.after?, hq]
  · by_cases hq : isQuote q <;> by_cases hb : b = '.' <;>
      simp [readQuoteDot, next?, Text.after?, hq, hb, Ne.symm]
  · by_cases hq : isQuote q <;> by_cases hb : b = '.' <;> by_cases hc : Text.isNameStart c <;>
      simp [readQuoteDot, next?, Text.after?, hq, hb, hc, Ne.symm]

theorem readDotQuote_eq (s : Chars) :
    readDotQuote s = (next? joinsDot s).bind fun (c, s) => (Text.after? ['.'] s).bind fun s =>
      (next? isQuote s).map fun (q, rest) => (c :: " ~ ".toList ++ [q], rest) := by
  rcases s with _ | ⟨c, _ | ⟨b, _ | ⟨q, rest⟩⟩⟩
  · rfl
  · by_cases hc : joinsDot c <;> simp [readDotQuote, next?, Text.after?, hc]
  · by_cases hc : joinsDot c <;> by_cases hb : b = '.' <;>
      simp [readDotQuote, next?, Text.after?, hc, hb, Ne.symm]
  · by_cases hc : joinsDot c <;> by_cases hb : b = '.' <;> by_cases hq : isQuote q <;>
      simp_all [readDotQuote, next?, Text.after?, joinsDot, Ne.symm]

/-! ## The rules one by one -/

theorem fits_readBareKey : r.Fits readBareKey := by
  refine r.fits_of_sees ?_ (fun c s hc => ?_) fun s out rest h => ?_
  · have hkey : ∀ c, r.Sees fun s => (Text.after? [']'] (s.dropWhile Text.isNameChar)).map fun rest =>
        ("['".toList ++ c :: s.takeWhile Text.isNameChar ++ "']".toList, rest) := by
      intro c s
      have hname : ∀ c, isMute c = true → Text.isNameChar c = false := fun _ h => (isMute_eq_true_iff.1 h).2.1
      simp only [r.dropWhile_text hname, r.takeWhile_text hname, r.after?_text [']'] (by decide),
        Option.map_map]
      rfl
    rw [funext readBareKey_eq]
    exact (Sees.next (fun _ => isNameStart_of_isMute) hkey).lead (by decide)
  · rw [readBareKey_eq, after?_of_isMute hc (by decide), Option.bind_none]
  · obtain ⟨name, hname, rfl, rfl⟩ := readBareKey_eq_some h
    refine ⟨?_, '[' :: (name ++ [']']), by simp, by simp⟩
    have hspoken : IsSpoken name := fun c hc => isMute_of_isNameChar (hname c hc)
    exact (IsSpoken.append (by decide) hspoken).append (by decide)

theorem fits_readSigil : r.Fits readSigil := by
  refine r.fits_of_sees ?_ (fun c s hc => ?_) fun s out rest h => ?_
  · rw [funext readSigil_eq]
    exact ((r.sees_next fun _ => isNameStart_of_isMute).map fun c => [c]).lead (by decide)
  · exact readSigil_of_ne (ne_of_isMute hc (by decide)) s
  · obtain ⟨c, hc, rfl, rfl⟩ := readSigil_eq_some h
    have hspoken := isMute_of_isNameChar (Text.isNameChar_of_isNameStart hc)
    exact ⟨.cons hspoken (by decide), ['$', c], by simp, rfl⟩

theorem fits_readNot : r.Fits readNot := by
  refine r.fits_of_sees ?_ (fun c s hc => ?_) fun s out rest h => ?_
  · have hnot : r.Sees fun s => if s.head? = some '=' then none else some ("not ".toList, s) := by
      intro s
      simp only [r.head?_text_eq_some_iff (c := '=') (by decide)]
      split <;> rfl
    rw [funext readNot_eq]
    exact hnot.lead (by decide)
  · rw [readNot_eq, after?_of_isMute hc (by decide), Option.bind_none]
  · obtain ⟨rfl, rfl⟩ := readNot_eq_some h
    exact ⟨by decide, ['!'], by simp, rfl⟩

theorem fits_readQuoteDot : r.Fits readQuoteDot := by
  refine r.fits_of_sees ?_ (fun c s hc => ?_) fun s out rest h => ?_
  · rw [funext readQuoteDot_eq]
    exact .next (fun _ => isQuote_of_isMute) fun q =>
      ((r.sees_next fun _ => isNameStart_of_isMute).map fun c => q :: " ~ ".toList ++ [c]).lead (by decide)
  · simp [readQuoteDot_eq, next?, isQuote_of_isMute hc]
  · obtain ⟨q, c, hq, hc, rfl, rfl⟩ := readQuoteDot_eq_some h
    have hspoken := isMute_of_isNameChar (Text.isNameChar_of_isNameStart hc)
    refine ⟨.cons (isMute_of_isQuote hq) ?_, [q, '.', c], by simp, rfl⟩
    exact (show IsSpoken " ~ ".toList by decide).append (.cons hspoken (by decide))

theorem joinsDot_of_isMute {c : Char} (h : isMute c = true) : joinsDot c = false := by
  have hname := (isMute_eq_true_iff.1 h).2.1
  have hclose := ne_of_isMute h (d := ')') (by decide)
  simp [joinsDot, hname, hclose]

theorem fits_readDotQuote : r.Fits readDotQuote := by
  refine r.fits_of_sees ?_ (fun c s hc => ?_) fun s out rest h => ?_
  · rw [funext readDotQuote_eq]
    exact .next (fun _ => joinsDot_of_isMute) fun c =>
      ((r.sees_next fun _ => isQuote_of_isMute).map fun q => c :: " ~ ".toList ++ [q]).lead (by decide)
  · simp [readDotQuote_eq, next?, joinsDot_of_isMute hc]
  · obtain ⟨c, q, hc, hq, rfl, rfl⟩ := readDotQuote_eq_some h
    have hspoken : isMute c = false := by
      cases hm : isMute c with
      | false => rfl
      | true => rw [joinsDot_of_isMute hm] at hc; cases hc
    refine ⟨.cons hspoken ?_, [c, '.', q], by simp, rfl⟩
    exact (show IsSpoken " ~ ".toList by decide).append (.cons (isMute_of_isQuote hq) (by decide))

theorem isBlank_of_isMute {c : Char} (h : isMute c = true) : Text.isBlank c = false :=
  (isMute_eq_true_iff.1 h).2.2.1

theorem fits_readSpaced {operator word : Chars} (hne : operator ≠ []) (hop : IsSpoken operator)
    (hword : IsSpoken word) : r.Fits (readSpaced operator word) := by
  obtain ⟨c, cs, rfl⟩ := List.exists_cons_of_ne_nil hne
  refine r.fits_of_sees (fun s => ?_) (fun d s hd => ?_) fun s out rest h => ?_
  · have hblank : ∀ c, isMute c = true → Text.isBlank c = false := fun _ => isBlank_of_isMute
    simp only [readSpaced, r.dropWhile_text hblank, r.after?_text _ hop, Option.map_map]
    congr 1
    funext rest
    exact congrArg (Prod.mk word) (r.dropWhile_text hblank rest)
  · simp [readSpaced, isBlank_of_isMute hd, after?_of_isMute hd (hop c List.mem_cons_self)]
  · obtain ⟨rfl, before, behind, -, rfl⟩ := readSpaced_eq_some h
    exact ⟨hword, before ++ (c :: cs) ++ behind, by simp, rfl⟩

theorem toLower_of_isMute {c : Char} (h : isMute c = true) : c.toLower = c := by
  have hname := (isMute_eq_true_iff.1 h).2.1
  refine dif_neg fun hupper => ?_
  have hletter : Text.isLetter c = true := by
    simp only [Text.isLetter, Bool.or_eq_true, Bool.and_eq_true, decide_eq_true_eq]
    exact .inr hupper
  simp [Text.isNameChar, Text.isNameStart, hletter] at hname

theorem caseless?_text {word : Chars} (hword : IsSpoken word) (s : Chars) :
    caseless? word (r.text s) = (caseless? word s).map r.text := by
  induction word generalizing s with
  | nil => rfl
  | cons p ps ih =>
    have hp := hword p List.mem_cons_self
    cases s with
    | nil => rfl
    | cons c cs =>
      rcases r.text_cons_cases c cs with ⟨-, ht⟩ | ⟨hc, d, ds, ht, hd⟩
      · rw [ht, caseless?, caseless?]
        split
        · exact ih (fun d hd => hword d (List.mem_cons_of_mem p hd)) cs
        · rfl
      · have hne := ne_of_isMute hc hp
        have hne' := ne_of_isMute hd hp
        simp [ht, caseless?, toLower_of_isMute hc, toLower_of_isMute hd, hne, hne']

theorem sees_readWord {word : Chars} (hword : IsSpoken word) : r.Sees (readWord word) := by
  have hrest : r.Sees fun s => (caseless? word s).bind fun s =>
      (Text.after? [' '] s).map fun rest => (' ' :: word ++ [' '], rest) := by
    intro s
    simp only [r.caseless?_text hword]
    cases caseless? word s with
    | none => rfl
    | some rest => exact r.sees_lead (' ' :: word ++ [' ']) (by decide) rest
  exact hrest.lead (by decide)

theorem fits_readLogicWord : r.Fits readLogicWord := by
  refine r.fits_of_sees (fun s => ?_) (fun c s hc => ?_) fun s out rest h => ?_
  · rw [readLogicWord_eq, readLogicWord_eq, r.sees_readWord (by decide),
      r.sees_readWord (by decide)]
    cases readWord "and".toList s <;> simp
  · rw [readLogicWord_eq, readWord, readWord, after?_of_isMute hc (by decide)]
    rfl
  · rw [readLogicWord_eq] at h
    rcases Option.or_eq_some_iff.1 h with h | ⟨-, h⟩
    all_goals
      obtain ⟨rfl, used, -, rfl⟩ := readWord_eq_some h
      exact ⟨by decide, ' ' :: (used ++ [' ']), by simp, by simp⟩

/-! ## Text outside literals -/

theorem readLiteral_cons_of_ne {q c : Char} (hc : c ≠ '\\') (hq : c ≠ q) (s : Chars) :
    readLiteral q (c :: s) = (c :: (readLiteral q s).1, (readLiteral q s).2) := by
  cases s with
  | nil => rfl
  | cons d ds => rw [readLiteral, if_neg hc, if_neg hq]

theorem readLiteral_append_of_isMute {q : Char} (hq : isMute q = false) {w : Chars}
    (hw : ∀ c ∈ w, isMute c = true) (s : Chars) :
    readLiteral q (w ++ s) = (w ++ (readLiteral q s).1, (readLiteral q s).2) := by
  induction w with
  | nil => rfl
  | cons c cs ih =>
    have hc := hw c List.mem_cons_self
    rw [List.cons_append, readLiteral_cons_of_ne (ne_of_isMute hc (by decide)) (ne_of_isMute hc hq),
      ih fun d hd => hw d (List.mem_cons_of_mem c hd)]
    rfl

theorem readLiteral_text {q : Char} (hq : isMute q = false) (s : Chars) :
    readLiteral q (r.text s) = (r.text (readLiteral q s).1, r.text (readLiteral q s).2) := by
  have hother {c : Char} (hc : c ≠ '\\') (hcq : c ≠ q) (s : Chars) :
      readLiteral q (r.image c ++ s) = (r.image c ++ (readLiteral q s).1, (readLiteral q s).2) := by
    cases hm : isMute c with
    | false => rw [r.image_of_spoken hm]; exact readLiteral_cons_of_ne hc hcq s
    | true => exact readLiteral_append_of_isMute hq (fun d hd => r.isMute_of_mem_image hm hd) s
  fun_induction readLiteral q s with
  | case1 => rfl
  | case2 c =>
    rw [text_cons]
    cases hm : isMute c with
    | false => rw [r.image_of_spoken hm]; rfl
    | true =>
      rw [readLiteral_append_of_isMute hq fun d hd => r.isMute_of_mem_image hm hd]
      rfl
  | case3 d rest body tail hr ih =>
    rw [hr] at ih
    have hescape (e : Char) (s : Chars) : readLiteral q ('\\' :: e :: s) =
        ('\\' :: e :: (readLiteral q s).1, (readLiteral q s).2) := by rw [readLiteral, if_pos rfl]
    obtain ⟨e, es, himage, -⟩ := r.image_eq_cons d
    have hes : readLiteral q (es ++ r.text rest) = (es ++ r.text body, r.text tail) := by
      rcases r.image_cases d with hd | ⟨-, -, hall⟩
      · obtain ⟨-, rfl⟩ := List.cons.inj (himage.symm.trans hd)
        exact ih
      · rw [readLiteral_append_of_isMute hq fun c hc => hall c (by simp [himage, hc]), ih]
    rw [r.text_cons_of_spoken (by decide), text_cons, himage, List.cons_append, hescape, hes,
      r.text_cons_of_spoken (by decide), text_cons, himage]
    rfl
  | case4 d rest hc =>
    obtain ⟨e, es, himage, -⟩ := r.image_eq_cons d
    rw [r.text_cons_of_spoken hq, text_cons, himage, List.cons_append, readLiteral, if_neg hc, if_pos rfl,
      r.text_cons_of_spoken hq]
    rfl
  | case5 c d rest hc hcq body tail hr ih =>
    rw [hr] at ih
    rw [text_cons, hother hc hcq, ih, text_cons]

theorem mapUnquoted_text {rule : Chars → Chars} (hrule : ∀ s, rule (r.text s) = r.text (rule s)) (s : Chars) :
    mapUnquoted rule (r.text s) = r.text (mapUnquoted rule s) := by
  induction hn : s.length using Nat.strongRecOn generalizing s with
  | ind n ih =>
    obtain ⟨htake, hdrop⟩ := r.span_text (p := fun c => !isQuote c) (b := true) (fun c hc => by
      simp [isQuote_of_isMute hc]) s
    rw [mapUnquoted, mapUnquoted]
    cases hd : s.dropWhile fun c => !isQuote c with
    | nil =>
      rw [hd, text_nil] at hdrop
      split <;> simp_all
    | cons q rest =>
      have hq : isMute q = false := isMute_of_isQuote (by
        have := List.head?_dropWhile_not (fun c => !isQuote c) s
        simpa [hd] using this)
      have hlen := (List.dropWhile_sublist (fun c => !isQuote c) (l := s)).length_le
      have hliteral := readLiteral_length q rest
      rw [hd, List.length_cons] at hlen
      have htail := ih (readLiteral q rest).2.length (by omega) _ rfl
      rw [hd, r.text_cons_of_spoken hq] at hdrop
      split
      · simp_all
      · rename_i q' rest' h'
        rw [hdrop] at h'
        obtain ⟨rfl, rfl⟩ := List.cons.inj h'
        simp only [htake, hrule, r.readLiteral_text hq, htail, text_append, r.text_cons_of_spoken hq]

/-- The translation of a recoded expression is the recoded translation. -/
theorem translate_text (e : Chars) : translate (r.text e) = r.text (translate e) := by
  have hkeys : quoteKeys (r.text e) = r.text (quoteKeys e) :=
    r.mapUnquoted_text (r.substitute_text r.fits_readBareKey) e
  have hsigils (s : Chars) : dropSigils (r.text s) = r.text (dropSigils s) := by
    rw [dropSigils_eq, dropSigils_eq, r.substitute_text r.fits_readSigil]
  have hjoins (s : Chars) : tildeJoins (r.text s) = r.text (tildeJoins s) := by
    rw [tildeJoins, r.replace_text (by decide) (by decide) (by decide), r.substitute_text r.fits_readQuoteDot,
      r.substitute_text r.fits_readDotQuote]
    rfl
  have hnot (s : Chars) : negations (r.text s) = r.text (negations s) :=
    r.mapUnquoted_text (fun s => by rw [spellNot_eq, spellNot_eq, r.substitute_text r.fits_readNot]) s
  have hlogic (s : Chars) : spellLogic (r.text s) = r.text (spellLogic s) := by
    rw [spellLogic, r.substitute_text (r.fits_readSpaced (by decide) (by decide) (by decide)),
      r.substitute_text (r.fits_readSpaced (by decide) (by decide) (by decide)),
      r.substitute_text r.fits_readLogicWord]
    rfl
  rw [Expression.translate, hkeys, hsigils, dotArrows, r.replace_text (by decide) (by decide) (by decide), hjoins, hnot,
    hlogic, r.trimWhile_text fun _ => isBlank_of_isMute]
  rfl

/-! ## Filter names -/

theorem segment_text (d : Dialect) (s : Chars) :
    FilterName.segment d (r.text s) = r.text (FilterName.segment d s) := by
  by_cases hs : IsSpoken s
  · rw [r.text_of_isSpoken hs, r.text_of_isSpoken]
    rw [FilterName.segment, FilterName.target?]
    split
    · exact hs
    · rename_i legacy found hfind
      split
      · exact show IsSpoken "tojson".toList by decide
      · obtain ⟨-, -, hname⟩ := FilterName.names_of_mem_table (List.mem_of_find?_eq_some hfind)
        exact fun c hc => isMute_of_isNameChar (hname c hc)
  · -- a text with a mute character is no name
    have hnone {s : Chars} (hs : ¬ IsSpoken s) : FilterName.segment d s = s :=
      FilterName.segment_eq_self fun h => hs fun c hc => isMute_of_isNameChar (h.2 c hc)
    rw [hnone hs, hnone (mt (r.isSpoken_text_iff s).1 hs)]

/-- Filter names in a recoded expression are translated as in the expression. -/
theorem filterNames_text (d : Dialect) (e : Chars) :
    FilterName.translate d (r.text e) = r.text (FilterName.translate d e) := by
  rw [FilterName.translate_eq_bySegments, FilterName.translate_eq_bySegments, FilterName.bySegments,
    FilterName.bySegments, r.splitOn_text (by decide) (by decide)]
  cases hparts : Text.splitOn ['|'] e with
  | nil => exact absurd hparts (Text.splitOn_ne_nil _ _)
  | cons value filters =>
    simp only [List.map_cons, ← r.join_text ['|'] (by decide), List.map_map]
    congr 2
    exact List.map_congr_left fun s _ => r.segment_text d s

end ViewBridge.Recoding
