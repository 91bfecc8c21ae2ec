import ViewBridge.Proofs.Carry
/-!
# Sound texts and their line breaks

A text that is being translated is sound if every opening character in it starts a whole word: the pair that stands
for a literal one, or the placeholder of a body on the shelf. What is written for an expression is sound if the
expression is, and has no more line breaks.

Results:
* `Sound.left_of_foreign`, `Sound.left_of_last`, `Sound.left_of_not_mem`: where a sound text may be cut.
* `tame_substitute`: rules that stay clear of the words keep a text sound.
* `tame_expression`, `tame_filterNames`: expressions and filter names.
-/
namespace ViewBridge.Shelf

/-- What stands for a literal opening character, or for a body on the shelf. -/
inductive Word (shelf : List Chars) : Chars → Prop
  | pair : Word shelf [opening, closing]
  | body {n : Nat} {made : Chars} (h : shelf[n]? = some made) : Word shelf (placeholder n made)

/-- A text in which opening characters only start words. -/
inductive Sound (shelf : List Chars) : Chars → Prop
  | nil : Sound shelf []
  | cons {c : Char} {s : Chars} (hc : c ≠ opening) (h : Sound shelf s) : Sound shelf (c :: s)
  | word {w s : Chars} (hw : Word shelf w) (h : Sound shelf s) : Sound shelf (w ++ s)

variable {shelf : List Chars} {s t : Chars}

theorem Word.solid {w : Chars} (h : Word shelf w) : Solid w := by
  cases h with
  | pair => exact ⟨⟨[], rfl⟩, by simp⟩
  | body _ => exact .placeholder _ _

theorem foreign_ne_opening {c : Char} (h : foreign c = true) : c ≠ opening := by
  rintro rfl
  cases h

/-- Only the first character of a word opens one. -/
theorem Word.opening_not_mem {c : Char} {w : Chars} (h : Word shelf (c :: w)) : opening ∉ w := by
  generalize hcw : c :: w = cw at h
  cases h with
  | pair =>
    obtain ⟨-, rfl⟩ := List.cons.inj hcw
    decide
  | body _ =>
    obtain ⟨-, rfl⟩ := List.cons.inj hcw
    intro hm
    rcases List.mem_append.1 hm with hm | hm
    · rcases List.mem_append.1 hm with hm | hm
      · exact absurd (isDigit_of_mem_ofNat hm) (by decide)
      · exact absurd (List.eq_of_mem_replicate hm) (by decide)
    · exact absurd hm (by decide)

namespace Sound

theorem of_not_mem (h : opening ∉ s) : Sound shelf s := by
  induction s with
  | nil => exact .nil
  | cons c cs ih =>
    rw [List.mem_cons, not_or] at h
    exact .cons (Ne.symm h.1) (ih h.2)

theorem of_word {w : Chars} (h : Word shelf w) : Sound shelf w := List.append_nil w ▸ .word h .nil

theorem append (hs : Sound shelf s) (ht : Sound shelf t) : Sound shelf (s ++ t) := by
  induction hs with
  | nil => exact ht
  | cons hc _ ih => exact .cons hc ih
  | word hw _ ih => rw [List.append_assoc]; exact .word hw ih

theorem tail {c : Char} (h : Sound shelf (c :: s)) : Sound shelf s := by
  generalize hcs : c :: s = cs at h
  cases h with
  | nil => cases hcs
  | cons _ h => exact (List.cons.inj hcs).2 ▸ h
  | @word w s' hw h =>
    obtain ⟨d, ds, rfl⟩ := List.exists_cons_of_ne_nil hw.solid.ne_nil
    rw [List.cons_append] at hcs
    rw [(List.cons.inj hcs).2]
    exact (of_not_mem hw.opening_not_mem).append h

theorem of_suffix (h : Sound shelf s) (ht : t <:+ s) : Sound shelf t := by
  obtain ⟨u, rfl⟩ := ht
  induction u with
  | nil => exact h
  | cons c u ih => exact ih h.tail

theorem right (h : Sound shelf (s ++ t)) : Sound shelf t := h.of_suffix (List.suffix_append s t)

/-- A sound text is cut where no word goes on. -/
theorem left (h : Sound shelf (s ++ t))
    (hcut : ∀ w u v, Word shelf w → u ≠ [] → v ≠ [] → w = u ++ v → u <:+ s → ¬ v <+: t) : Sound shelf s := by
  generalize hst : s ++ t = st at h
  induction h generalizing s with
  | nil => rw [(List.append_eq_nil_iff.1 hst).1]; exact .nil
  | @cons c cs hc h ih =>
    cases s with
    | nil => exact .nil
    | cons d ds =>
      obtain ⟨rfl, hds⟩ := List.cons.inj hst
      exact .cons hc (ih (fun w u v hw hu hv he hsuffix =>
        hcut w u v hw hu hv he (hsuffix.trans (List.suffix_cons _ ds))) hds)
  | @word w s' hw h ih =>
    rcases List.append_eq_append_iff.1 hst with ⟨v, hwv, ht⟩ | ⟨a, rfl, ha⟩
    · rcases List.eq_nil_or_concat' s with rfl | ⟨u, c, rfl⟩
      · exact .nil
      · cases v with
        | nil => rw [List.append_nil] at hwv; exact hwv ▸ (List.append_nil w) ▸ .word hw .nil
        | cons d ds =>
          exact absurd (ht ▸ List.prefix_append _ s') (hcut w _ _ hw (by simp) (by simp) hwv (List.suffix_refl _))
    · refine .word hw (ih (fun w' u v hw' hu hv he hsuffix => ?_) ha.symm)
      exact hcut w' u v hw' hu hv he (hsuffix.trans (List.suffix_append w a))

/-- A cut in front of a foreign character, or of text without the end of a word in front of one. -/
theorem left_of_foreign {before rest : Chars} {c : Char} (h : Sound shelf (s ++ (before ++ c :: rest)))
    (hb : closing ∉ before) (hc : foreign c = true) : Sound shelf s := by
  refine h.left fun w u v hw hu hv he _ hstart => ?_
  obtain ⟨r, hr⟩ := hstart
  exact hw.solid.append_ne_append_cons hv (he ▸ List.suffix_append u v) hb hc hr

theorem left_of_cons {rest : Chars} {c : Char} (h : Sound shelf (s ++ c :: rest)) (hc : foreign c = true) :
    Sound shelf s := @left_of_foreign shelf s [] rest c h List.not_mem_nil hc

/-- A cut behind a foreign character. -/
theorem left_of_last {c : Char} (h : Sound shelf (s ++ c :: t)) (hc : foreign c = true) :
    Sound shelf (s ++ [c]) := by
  rw [List.append_cons] at h
  refine h.left fun w u v hw hu _ he hsuffix => ?_
  obtain ⟨u', d, rfl⟩ := List.eq_nil_or_concat' u |>.resolve_left hu
  have hd : d = c := by
    obtain ⟨r, hr⟩ := hsuffix
    rw [← List.append_assoc] at hr
    exact List.head_eq_of_cons_eq (List.append_inj' hr rfl).2
  exact absurd (show c ∈ w by rw [he, hd]; simp) (hw.solid.not_mem hc)

/-- A cut in front of text without the end of a word. -/
theorem left_of_not_mem (h : Sound shelf (s ++ t)) (ht : closing ∉ t) : Sound shelf s := by
  refine h.left fun w u v hw _ hv he _ hstart => ht (hstart.mem ?_)
  obtain ⟨v', d, rfl⟩ := List.eq_nil_or_concat' v |>.resolve_left hv
  have hlast : d = closing := by
    refine hw.solid.getLast_of_suffix ?_
    rw [he, ← List.append_assoc]
    exact List.suffix_append _ _
  simp [hlast]

theorem dropEndWhile {p : Char → Bool} (hp : p closing = false) (h : Sound shelf s) :
    Sound shelf (Text.dropEndWhile p s) := by
  have hsplit : Text.dropEndWhile p s ++ (s.reverse.takeWhile p).reverse = s := by
    rw [Text.dropEndWhile, ← List.reverse_append, List.takeWhile_append_dropWhile, List.reverse_reverse]
  rw [← hsplit] at h
  refine h.left_of_not_mem fun hm => ?_
  have := List.mem_takeWhile_imp (List.mem_reverse.1 hm)
  rw [hp] at this
  cases this

theorem trimWhile {p : Char → Bool} (hp : p closing = false) (h : Sound shelf s) :
    Sound shelf (Text.trimWhile p s) := (h.of_suffix (List.dropWhile_suffix p)).dropEndWhile hp

/-- What stands in front of the first foreign character of a kind. -/
theorem takeWhile {p : Char → Bool} (hp : ∀ c, p c = false → foreign c = true) (h : Sound shelf s) :
    Sound shelf (s.takeWhile p) := by
  have hsplit := List.takeWhile_append_dropWhile (p := p) (l := s)
  cases hdrop : s.dropWhile p with
  | nil => rw [hdrop, List.append_nil] at hsplit; rwa [hsplit]
  | cons c cs =>
    rw [hdrop] at hsplit
    rw [← hsplit] at h
    refine h.left_of_cons (hp c ?_)
    have := List.head?_dropWhile_not p s
    rw [hdrop] at this
    simpa using this

theorem mono {shelf' : List Chars} (hgrows : shelf <+: shelf') (h : Sound shelf s) : Sound shelf' s := by
  induction h with
  | nil => exact .nil
  | cons hc _ ih => exact .cons hc ih
  | word hw _ ih =>
    refine .word ?_ ih
    cases hw with
    | pair => exact .pair
    | body h =>
      obtain ⟨rest, rfl⟩ := hgrows
      exact .body (List.getElem?_append_left (List.getElem?_eq_some_iff.1 h).1 ▸ h)

end Sound

theorem sound_escape (s : Chars) : Sound shelf (escape s) := by
  induction s with
  | nil => rw [escape_nil]; exact .nil
  | cons c cs ih =>
    rw [escape_cons]
    split
    · exact .word .pair ih
    · rename_i hc
      exact .cons hc ih

/-! ## Tame rewritings -/

/-- What is written for a text: no more line breaks, and sound if the text is. -/
structure Tame (shelf : List Chars) (s out : Chars) : Prop where
  breaks : out.count '\n' ≤ s.count '\n'
  sound : Sound shelf s → Sound shelf out

namespace Tame

variable {a b c : Chars} {x : Char}

theorem refl (s : Chars) : Tame shelf s s := ⟨Nat.le_refl _, id⟩

theorem trans (h : Tame shelf a b) (h' : Tame shelf b c) : Tame shelf a c :=
  ⟨h'.breaks.trans h.breaks, h'.sound ∘ h.sound⟩

/-- Texts on both sides of a foreign character. -/
theorem append_cons {a' b' : Chars} (hc : foreign x = true) (h : Tame shelf a a') (h' : Tame shelf b b') :
    Tame shelf (a ++ x :: b) (a' ++ x :: b') where
  breaks := by
    have := h.breaks
    have := h'.breaks
    simp only [List.count_append, List.count_cons]
    omega
  sound hs := (h.sound (hs.left_of_cons hc)).append (.cons (foreign_ne_opening hc) (h'.sound hs.right.tail))

theorem trimWhile {p : Char → Bool} (hp : p closing = false) (s : Chars) : Tame shelf s (Text.trimWhile p s) where
  breaks := by
    have hend (s : Chars) : (Text.dropEndWhile p s).Sublist s := by
      rw [Text.dropEndWhile, ← List.reverse_sublist, List.reverse_reverse]
      exact (List.dropWhile_suffix p).sublist
    exact ((hend _).trans (List.dropWhile_suffix p).sublist).count_le '\n'
  sound := Sound.trimWhile hp

end Tame

section
variable {σ : Type} {find : σ → Chars → Option (Chars × σ × Chars)} {book : σ → List Chars}

/-- A text is read before the end of any word at its start: at a foreign character behind text without one. -/
def ReadsAhead (s rest : Chars) : Prop :=
  ∃ before c behind, s = before ++ c :: (behind ++ rest) ∧ closing ∉ before ∧ foreign c = true

theorem ReadsAhead.suffix {rest : Chars} (h : ReadsAhead s rest) : rest <:+ s ∧ rest.length < s.length := by
  obtain ⟨before, c, behind, rfl, -, -⟩ := h
  refine ⟨⟨before ++ c :: behind, by simp⟩, ?_⟩
  simp only [List.length_append, List.length_cons]
  omega

/-- A pass that reads ahead of the words, and writes sound text, leaves sound text, also while the shelf grows. -/
theorem sound_substituteFrom
    (hread : ∀ {st s out st' rest}, find st s = some (out, st', rest) → Sound (book st) s →
      ReadsAhead s rest ∧ book st <+: book st' ∧ Sound (book st') out)
    (st : σ) {s : Chars} (h : Sound (book st) s) :
    book st <+: book (Text.substituteFrom find st s).2 ∧
      Sound (book (Text.substituteFrom find st s).2) (Text.substituteFrom find st s).1 := by
  induction hn : s.length using Nat.strongRecOn generalizing s st with
  | ind n ih =>
    have hsome (out : Chars) (st' : σ) (rest : Chars) (hfind : find st s = some (out, st', rest)) :
        book st <+: book (Text.substituteFrom find st s).2 ∧
          Sound (book (Text.substituteFrom find st s).2) (Text.substituteFrom find st s).1 := by
      obtain ⟨hahead, hgrows, hout⟩ := hread hfind h
      obtain ⟨hsuffix, hlen⟩ := hahead.suffix
      obtain ⟨hbook, hrest⟩ := ih rest.length (by omega) st' ((h.of_suffix hsuffix).mono hgrows) rfl
      rw [Text.substituteFrom_of_some hfind hlen]
      exact ⟨hgrows.trans hbook, (hout.mono hbook).append hrest⟩
    cases hfind : find st s with
    | some r => exact hsome r.1 r.2.1 r.2.2 hfind
    | none =>
      cases h with
      | nil => rw [Text.substituteFrom_nil]; exact ⟨List.prefix_refl _, .nil⟩
      | @cons c cs hc h =>
        rw [List.length_cons] at hn
        obtain ⟨hbook, htail⟩ := ih cs.length (by omega) st h rfl
        rw [Text.substituteFrom_cons_of_none hfind]
        exact ⟨hbook, .cons hc htail⟩
      | @word w s' hw hs =>
        have hlen := List.length_pos_iff.2 hw.solid.ne_nil
        rw [List.length_append] at hn
        obtain ⟨hbook, htail⟩ := ih s'.length (by omega) st hs rfl
        have hcopy (v : Chars) (hv : v ≠ []) (hsuffix : v <:+ w) : find st (v ++ s') = none := by
          cases hr : find st (v ++ s') with
          | none => rfl
          | some r =>
            have hv' : Sound (book st) (v ++ s') := ((Sound.of_word hw).of_suffix hsuffix).append hs
            obtain ⟨⟨before, c, behind, heq, hb, hc⟩, -, -⟩ :=
              hread (show find st (v ++ s') = some (r.1, r.2.1, r.2.2) from hr) hv'
            exact absurd heq (hw.solid.append_ne_append_cons hv hsuffix hb hc)
        rw [Text.substituteFrom_append_of_none hcopy]
        exact ⟨hbook, ((Sound.of_word hw).mono hbook).append htail⟩

end

/-- A rule that reads ahead of the words, and writes no shield and no line breaks besides those it reads. -/
def Discreet (find : Chars → Option (Chars × Chars)) : Prop :=
  ∀ {s out rest}, find s = some (out, rest) → ∃ before c behind, s = before ++ c :: (behind ++ rest) ∧
    closing ∉ before ∧ foreign c = true ∧ out.count '\n' ≤ (before ++ c :: behind).count '\n' ∧ opening ∉ out

/-- A discreet rule keeps a text sound. -/
theorem tame_substitute {find : Chars → Option (Chars × Chars)} (h : Discreet find) (s : Chars) :
    Tame shelf s (Text.substitute find s) where
  breaks := by
    rw [Text.substitute_eq_substituteFrom]
    refine Text.count_substituteFrom_le (fun hf => ?_) () s
    obtain ⟨before, c, behind, rfl, -, -, hbreaks, -⟩ := h (Text.stateless_eq_some hf)
    exact ⟨before ++ c :: behind, by simp, hbreaks⟩
  sound hs := by
    rw [Text.substitute_eq_substituteFrom]
    refine (@sound_substituteFrom Unit _ (fun _ => shelf) (fun hf _ => ?_) () s hs).2
    obtain ⟨before, c, behind, heq, hb, hc, -, hout⟩ := h (Text.stateless_eq_some hf)
    exact ⟨⟨before, c, behind, heq, hb, hc⟩, List.prefix_refl _, .of_not_mem hout⟩

end ViewBridge.Shelf

namespace ViewBridge.Expression

open ViewBridge.Shelf (Sound Tame Discreet foreign tame_substitute)

variable {shelf : List Chars}

/-! ## The rules one by one -/

theorem count_eq_zero_of_all {p : Char → Bool} (hp : p '\n' = false) {s : Chars} (h : ∀ c ∈ s, p c = true) :
    s.count '\n' = 0 :=
  List.count_eq_zero.2 fun hm => by rw [h _ hm] at hp; cases hp

/-- A rule that reads a text which starts with a foreign character, and writes one in its place. -/
theorem discreet_exchange {c : Char} {cs new : Chars} (hc : foreign c = true)
    (hbreaks : new.count '\n' ≤ (c :: cs).count '\n') (hnew : Shelf.opening ∉ new) :
    Discreet (Text.exchange (c :: cs) new) := by
  intro s out rest hf
  obtain ⟨rfl, rfl⟩ := Text.exchange_eq_some hf
  exact ⟨[], c, cs, rfl, List.not_mem_nil, hc, hbreaks, hnew⟩

theorem tame_replace {old new : Chars} {c : Char} {cs : Chars} (hold : old = c :: cs) (hc : foreign c = true)
    (hbreaks : new.count '\n' ≤ old.count '\n') (hnew : Shelf.opening ∉ new) (s : Chars) :
    Tame shelf s (Text.replace old new s) := by
  subst hold
  rw [Text.replace_eq_substitute _ (List.cons_ne_nil c cs)]
  exact tame_substitute (discreet_exchange hc hbreaks hnew) s

theorem discreet_readBareKey : Discreet readBareKey := by
  intro s out rest hf
  obtain ⟨name, hname, rfl, rfl⟩ := readBareKey_eq_some hf
  refine ⟨[], '[', name ++ [']'], by simp, List.not_mem_nil, rfl, ?_, ?_⟩
  · have hzero : name.count '\n' = 0 := count_eq_zero_of_all (by decide) hname
    simp [hzero]
  · simp only [List.mem_append, not_or]
    exact ⟨⟨by decide, fun hm => absurd rfl (opening_ne_of_nameChar (hname _ hm))⟩, by decide⟩

theorem tame_dropSigils (s : Chars) : Tame shelf s (dropSigils s) := by
  rw [dropSigils_eq]
  refine tame_substitute (fun {s out rest} hf => ?_) s
  obtain ⟨c, hc, rfl, rfl⟩ := readSigil_eq_some hf
  refine ⟨[], '$', [c], rfl, List.not_mem_nil, rfl, ?_, ?_⟩
  · exact (List.sublist_cons_self '$' [c]).count_le '\n'
  · simpa using opening_ne_of_nameChar (Text.isNameChar_of_isNameStart hc)

theorem discreet_readNot : Discreet readNot := by
  intro s out rest hf
  obtain ⟨rfl, rfl⟩ := readNot_eq_some hf
  exact ⟨[], '!', [], rfl, List.not_mem_nil, rfl, by decide, by decide⟩

theorem discreet_readQuoteDot : Discreet readQuoteDot := by
  intro s out rest hf
  obtain ⟨q, c, hq, hc, rfl, rfl⟩ := readQuoteDot_eq_some hf
  refine ⟨[], q, ['.', c], rfl, List.not_mem_nil, foreign_of_isQuote hq, ?_, ?_⟩
  · simp [List.count_cons]
  · have hqo := Shelf.foreign_ne_opening (foreign_of_isQuote hq)
    have hco := opening_ne_of_nameChar (Text.isNameChar_of_isNameStart hc)
    simp only [List.cons_append, List.mem_cons, List.mem_append, List.not_mem_nil, or_false, not_or]
    exact ⟨hqo.symm, by decide, hco⟩

theorem discreet_readDotQuote : Discreet readDotQuote := by
  intro s out rest hf
  obtain ⟨c, q, hc, hq, rfl, rfl⟩ := readDotQuote_eq_some hf
  have hjoins : Shelf.opening ≠ c ∧ Shelf.closing ≠ c := by constructor <;> (rintro rfl; cases hc)
  refine ⟨[c], '.', [q], rfl, by simpa using hjoins.2, rfl, ?_, ?_⟩
  · simp [List.count_cons]
  · have hqo := Shelf.foreign_ne_opening (foreign_of_isQuote hq)
    simp only [List.cons_append, List.mem_cons, List.mem_append, List.not_mem_nil, or_false, not_or]
    exact ⟨hjoins.1, by decide, hqo.symm⟩

theorem discreet_readSpaced {c : Char} {cs word : Chars} (hc : foreign c = true) (hbreaks : word.count '\n' = 0)
    (hword : Shelf.opening ∉ word) : Discreet (readSpaced (c :: cs) word) := by
  intro s out rest hf
  obtain ⟨rfl, before, behind, hb, rfl⟩ := readSpaced_eq_some hf
  refine ⟨before, c, cs ++ behind, by simp, fun hm => ?_, hc, by omega, hword⟩
  cases hb _ (List.mem_append_left _ hm)

theorem discreet_readLogicWord : Discreet readLogicWord := by
  intro s out rest hf
  have hword {word : Chars} (hbreaks : word.count '\n' = 0) (hopening : Shelf.opening ∉ word)
      (hf : readWord word s = some (out, rest)) : ∃ before c behind, s = before ++ c :: (behind ++ rest) ∧
        Shelf.closing ∉ before ∧ foreign c = true ∧ out.count '\n' ≤ (before ++ c :: behind).count '\n' ∧
        Shelf.opening ∉ out := by
    obtain ⟨rfl, used, -, rfl⟩ := readWord_eq_some hf
    refine ⟨[], ' ', used ++ [' '], by simp, List.not_mem_nil, rfl, ?_, ?_⟩
    · simp [hbreaks]
    · simp only [List.cons_append, List.mem_cons, List.mem_append, List.not_mem_nil, or_false, not_or]
      exact ⟨by decide, hopening, by decide⟩
  rw [readLogicWord_eq] at hf
  rcases Option.or_eq_some_iff.1 hf with hf | ⟨-, hf⟩
  · exact hword (by decide) (by decide) hf
  · exact hword (by decide) (by decide) hf

/-! ## Expressions -/

theorem sound_readLiteral {q : Char} (hq : isQuote q = true) {s : Chars} (h : Sound shelf s) :
    Sound shelf (readLiteral q s).1 := by
  rcases readLiteral_ends q s with htail | ⟨body, hbody⟩
  · have happend := readLiteral_append q s
    rw [htail, List.append_nil] at happend
    rwa [happend]
  · rw [← readLiteral_append q s, hbody, List.append_assoc] at h
    rw [hbody]
    exact h.left_of_last (foreign_of_isQuote hq)

theorem tame_mapUnquoted {rule : Chars → Chars} (hrule : ∀ s, Tame shelf s (rule s)) (s : Chars) :
    Tame shelf s (mapUnquoted rule s) := by
  induction hn : s.length using Nat.strongRecOn generalizing s with
  | ind n ih =>
    have hsplit := List.takeWhile_append_dropWhile (p := fun c => !isQuote c) (l := s)
    rw [mapUnquoted]
    split
    · rename_i hd
      rw [hd, List.append_nil] at hsplit
      rw [hsplit]
      exact hrule s
    · rename_i q rest hd
      rw [hd] at hsplit
      have hq : isQuote q = true := by
        have := List.head?_dropWhile_not (fun c => !isQuote c) s
        simpa [hd] using this
      have hlen := congrArg List.length hsplit
      simp only [List.length_append, List.length_cons] at hlen
      have hrest := readLiteral_length q rest
      have htail := ih (readLiteral q rest).2.length (by omega) _ rfl
      have hplain := hrule (s.takeWhile fun c => !isQuote c)
      have hliteral := readLiteral_append q rest
      have hbehind : Tame shelf rest ((readLiteral q rest).1 ++ mapUnquoted rule (readLiteral q rest).2) := by
        constructor
        · have hb := htail.breaks
          have hcount := congrArg (List.count '\n') hliteral
          rw [List.count_append] at hcount ⊢
          omega
        · intro hs
          have hright : Sound shelf (readLiteral q rest).2 := by
            rw [← hliteral] at hs
            exact hs.right
          exact (sound_readLiteral hq hs).append (htail.sound hright)
      generalize s.takeWhile (fun c => !isQuote c) = plain at hsplit hplain ⊢
      rw [← hsplit, List.append_assoc, List.cons_append]
      exact .append_cons (foreign_of_isQuote hq) hplain hbehind

/-- The translation of an expression keeps placeholders whole and makes no line breaks. -/
theorem tame_expression (e : Chars) : Tame shelf e (translate e) := by
  have hkeys : Tame shelf e (quoteKeys e) := tame_mapUnquoted (fun s => tame_substitute discreet_readBareKey s) e
  have harrows : Tame shelf e (dotArrows (dropSigils (quoteKeys e))) :=
    (hkeys.trans (tame_dropSigils _)).trans (tame_replace (c := '-') rfl rfl (by decide) (by decide) _)
  have hjoins : Tame shelf e (tildeJoins (dotArrows (dropSigils (quoteKeys e)))) :=
    ((harrows.trans (tame_replace (c := ' ') rfl rfl (by decide) (by decide) _)).trans
      (tame_substitute discreet_readQuoteDot _)).trans (tame_substitute discreet_readDotQuote _)
  have hnot := @tame_mapUnquoted shelf spellNot
    (fun s => spellNot_eq s ▸ tame_substitute discreet_readNot s)
    (tildeJoins (dotArrows (dropSigils (quoteKeys e))))
  have hand := @tame_substitute shelf _ (@discreet_readSpaced '&' ['&'] " and ".toList rfl (by decide) (by decide))
  have hor := @tame_substitute shelf _ (@discreet_readSpaced '|' ['|'] " or ".toList rfl (by decide) (by decide))
  exact ((((hjoins.trans hnot).trans (hand _)).trans (hor _)).trans (tame_substitute discreet_readLogicWord _)).trans
    (.trimWhile rfl _)

end ViewBridge.Expression

namespace ViewBridge.FilterName

open ViewBridge.Shelf (Sound Tame)

variable {shelf : List Chars}

theorem tame_segment (d : Dialect) (s : Chars) : Tame shelf s (segment d s) := by
  unfold segment target?
  split
  · exact .refl s
  · rename_i legacy found hfind
    obtain ⟨-, -, hname⟩ := names_of_mem_table (List.mem_of_find?_eq_some hfind)
    have hbreak : '\n' ∉ found.toList := fun hm => absurd (hname _ hm) (by decide)
    have hopening : Shelf.opening ∉ found.toList := fun hm => absurd (hname _ hm) (by decide)
    split
    · rw [Option.getD_some]
      exact ⟨by rw [List.count_eq_zero.2 (by decide)]; omega, fun _ => .of_not_mem (by decide)⟩
    · rw [Option.getD_some]
      exact ⟨by rw [List.count_eq_zero.2 hbreak]; omega, fun _ => .of_not_mem hopening⟩

theorem join_bar_cons (p : Chars) {ps : List Chars} (h : ps ≠ []) :
    Text.join ['|'] (p :: ps) = p ++ '|' :: Text.join ['|'] ps := by
  rw [Text.join_cons _ _ h, List.append_assoc]
  rfl

theorem tame_join_segments (d : Dialect) (parts : List Chars) :
    Tame shelf (Text.join ['|'] parts) (Text.join ['|'] (parts.map (segment d))) := by
  induction parts with
  | nil => exact .refl _
  | cons p ps ih =>
    cases ps with
    | nil => exact tame_segment d p
    | cons q qs =>
      rw [List.map_cons, join_bar_cons p (List.cons_ne_nil q qs),
        join_bar_cons (segment d p) (show (q :: qs).map (segment d) ≠ [] from List.cons_ne_nil _ _)]
      exact .append_cons rfl (tame_segment d p) ih

/-- So do filter names in the words of a dialect. -/
theorem tame_filterNames (d : Dialect) (e : Chars) : Tame shelf e (translate d e) := by
  rw [translate_eq_bySegments, bySegments]
  have hjoin := Text.join_splitOn ['|'] e
  generalize Text.splitOn ['|'] e = parts at hjoin ⊢
  subst hjoin
  cases parts with
  | nil => exact .refl _
  | cons value parts =>
    cases parts with
    | nil => exact .refl _
    | cons p ps =>
      simp only [List.map_cons]
      rw [join_bar_cons value (List.cons_ne_nil p ps),
        join_bar_cons value (List.cons_ne_nil (segment d p) (ps.map (segment d)))]
      exact .append_cons rfl (.refl value) (tame_join_segments d (p :: ps))

end ViewBridge.FilterName
