import ViewBridge.Proofs.Template.Scanning
/-!
# Scanning tags

The tokens of a text and of what stands inside a tag, put together from the tokens of what comes next. How
much fuel the scanner has does not matter as long as it is more than there is text.

Results:
* `Scans.tag`: a tag behind text is the text, the start of the tag and the tokens in it.
* `scanTag_name`, `scanTag_mark`: a name or a mark is one token, inside of however many brackets.
* `ScansTag.stop`: the end of a tag is one token, and text goes on behind it.
* `tokens_of_scans`: the tokens of a template that ends with a tag.
-/
namespace ViewBridge.Template

/-- A text that starts on a line has certain tokens. -/
def Scans (line : Nat) (s : Chars) (ls : List Lexeme) : Prop :=
  ∀ fuel, s.length < fuel → scanText fuel false line s = ls

/-- What stands in a tag of a kind, outside of all brackets, and behind it has certain tokens. -/
def ScansTag (kind : TagKind) (line : Nat) (s : Chars) (ls : List Lexeme) : Prop :=
  ∀ fuel, s.length < fuel → scanTag fuel kind 0 line s = ls

/-- The second character of what a tag starts with. -/
def TagKind.mark : TagKind → Char
  | .output => '\x7b'
  | .statement => '%'

variable {kind : TagKind} {line : Nat} {s : Chars} {ls : List Lexeme}

theorem Scans.text (hs : '\x7b' ∉ s) (line : Nat) : Scans line s (dataTokens line s) := by
  intro fuel hfuel
  obtain ⟨fuel, rfl⟩ := Nat.exists_eq_add_of_lt hfuel
  exact scanText_of_no_brace hs _ line

/-- A tag that starts with a blank and does not hold the word of a raw block alone. -/
theorem Scans.tag (kind : TagKind) {pre : Chars} (hpre : '\x7b' ∉ pre)
    (hraw : kind = .statement → readWordTag "raw".toList (' ' :: s) = none)
    (h : ScansTag kind (line + lineBreaks pre) (' ' :: s) ls) :
    Scans line (pre ++ '\x7b' :: kind.mark :: ' ' :: s)
      (dataTokens line pre ++ ⟨.start kind, line + lineBreaks pre⟩ :: ls) := by
  intro fuel hfuel
  simp only [List.length_append, List.length_cons] at hfuel
  obtain ⟨fuel, rfl⟩ : ∃ n, fuel = n + 1 := ⟨fuel - 1, by omega⟩
  have hopening : openingOf? '\x7b' kind.mark = some (.tag kind) := by cases kind <;> rfl
  have hsplit := splitAtTag_append hpre hopening (' ' :: s)
  have htag := h fuel (by simp only [List.length_cons]; omega)
  rw [scanText]
  simp only [Bool.false_eq_true, if_false, List.length_nil, List.drop_zero, hsplit,
    readSign_of_no_sign (c := ' ') (by decide)]
  have hlead : line + lineBreaks [] = line := rfl
  cases kind with
  | output => simp only [hlead, htag]; rfl
  | statement => simp only [hlead, hraw rfl, htag]; rfl

/-! ## Names as tokens -/

section
variable {c : Char}

theorem ne_of_isNameStart (h : Text.isNameStart c = true) {d : Char} (hd : Text.isNameStart d = false) : c ≠ d := by
  rintro rfl
  rw [hd] at h
  cases h

theorem isDigit_of_isNameStart (h : Text.isNameStart c = true) : Text.isDigit c = false := by
  simp only [Text.isNameStart, Text.isLetter, Text.isDigit, Bool.or_eq_true, Bool.and_eq_true, decide_eq_true_eq,
    Char.le_def, beq_iff_eq, UInt32.le_iff_toNat_le, Bool.and_eq_false_iff, decide_eq_false_iff_not] at h ⊢
  rcases h with (h | h) | rfl
  · exact .inr fun hle => absurd (h.1.trans hle) (by decide)
  · exact .inr fun hle => absurd (h.1.trans hle) (by decide)
  · exact .inr (by decide)

theorem ofChar?_of_isNameStart (h : Text.isNameStart c = true) : Mark.ofChar? c = none := by
  have hne {d : Char} (hd : Text.isNameStart d = false) : c ≠ d := ne_of_isNameStart h hd
  simp only [Mark.ofChar?, hne (d := '+') rfl, hne (d := '-') rfl, hne (d := '*') rfl, hne (d := '/') rfl,
    hne (d := '%') rfl, hne (d := '.') rfl, hne (d := ',') rfl, hne (d := ':') rfl, hne (d := '~') rfl,
    hne (d := '|') rfl, hne (d := '=') rfl, hne (d := '<') rfl, hne (d := '>') rfl, hne (d := '(') rfl,
    hne (d := ')') rfl, hne (d := '[') rfl, hne (d := ']') rfl, hne (d := '\x7b') rfl,
    hne (d := '\x7d') rfl, if_false]

theorem ofPair?_of_isNameStart (h : Text.isNameStart c = true) (d : Char) : Mark.ofPair? c d = none := by
  have hne {d : Char} (hd : Text.isNameStart d = false) : c ≠ d := ne_of_isNameStart h hd
  simp [Mark.ofPair?, hne (d := '/') rfl, hne (d := '*') rfl, hne (d := '=') rfl, hne (d := '!') rfl,
    hne (d := '>') rfl, hne (d := '<') rfl]

theorem isTagBlank_of_isNameStart (h : Text.isNameStart c = true) : isTagBlank c = false := by
  have hne {d : Char} (hd : Text.isNameStart d = false) : c ≠ d := ne_of_isNameStart h hd
  simp [isTagBlank, hne (d := ' ') rfl, hne (d := '\t') rfl, hne (d := '\n') rfl, hne (d := '\r') rfl,
    hne (d := '\x0c') rfl]

/-- A name is read up to a character that it cannot go on with. -/
theorem readToken_name (h : Text.isNameStart c = true) {w r : Chars} {d : Char} (hw : ∀ c ∈ w, Text.isNameChar c = true)
    (hd : Text.isNameChar d = false) : readToken (c :: w ++ d :: r) = (.name (c :: w), d :: r) := by
  have htake : (w ++ d :: r).takeWhile Text.isNameChar = w := by
    rw [List.takeWhile_append_of_pos hw, List.takeWhile_cons_of_neg (by simp [hd]), List.append_nil]
  have hdrop : (w ++ d :: r).dropWhile Text.isNameChar = d :: r := by
    rw [List.dropWhile_append_of_pos hw, List.dropWhile_cons_of_neg (by simp [hd])]
  have hquotes : c ≠ '\x27' ∧ c ≠ '\x22' := ⟨ne_of_isNameStart h rfl, ne_of_isNameStart h rfl⟩
  rw [List.cons_append, readToken.eq_def]
  simp only [ofChar?_of_isNameStart h, hquotes.1, hquotes.2, or_self, if_false, isDigit_of_isNameStart h, h, if_true,
    htake, hdrop, Bool.false_eq_true]
  -- what follows the first character does not make a mark of two with it
  cases w ++ d :: r <;> simp only [ofPair?_of_isNameStart h, Option.map_none]

end

/-! ## Tokens in tags -/

section
variable {c d : Char} {w r : Chars}

/-- A blank in a tag is no token. -/
theorem scanTag_blank (kind : TagKind) (fuel : Nat) (nesting : Int) (line : Nat) (s : Chars) :
    scanTag fuel kind nesting line (' ' :: s) = scanTag fuel kind nesting line s := by
  have htake : (' ' :: s).takeWhile isTagBlank = ' ' :: s.takeWhile isTagBlank := rfl
  have hdrop : (' ' :: s).dropWhile isTagBlank = s.dropWhile isTagBlank := rfl
  have hbreaks (t : Chars) : lineBreaks (' ' :: t) = lineBreaks t := List.count_cons_of_ne (by decide)
  cases fuel with
  | zero => rw [scanTag, scanTag]
  | succ fuel => rw [scanTag, scanTag, htake, hdrop, hbreaks]

/-- One token inside of so many brackets, outside of which it is not the end of the tag. -/
theorem scanTag_token (fuel : Nat) (nesting : Int) {t : Token} (hblank : isTagBlank c = false)
    (hstop : nesting = 0 → readStop kind (c :: w ++ r) = none) (hread : readToken (c :: w ++ r) = (t, r))
    (hfailure : t.isFailure = false) (hbreaks : '\n' ∉ c :: w) :
    scanTag (fuel + 1) kind nesting line (c :: w ++ r) =
      ⟨t, line⟩ :: scanTag fuel kind (nesting + t.nesting) line r := by
  have htake : (c :: w ++ r).takeWhile isTagBlank = [] := by simp [hblank]
  have hdrop : (c :: w ++ r).dropWhile isTagBlank = c :: w ++ r := by simp [hblank]
  have hlines : lineBreaks (c :: w ++ r) - lineBreaks r = 0 := by
    rw [lineBreaks, lineBreaks, List.count_append, List.count_eq_zero.2 hbreaks]
    omega
  rw [List.cons_append] at htake hdrop hstop hread hlines ⊢
  have hline : line + lineBreaks [] = line := rfl
  have hnone : (if nesting = 0 then readStop kind (c :: (w ++ r)) else none) = none := by
    split
    · exact hstop ‹_›
    · rfl
  rw [scanTag, htake, hdrop]
  simp only [hnone, hread, hfailure, Bool.false_eq_true, if_false, hlines, Nat.add_zero, hline]

theorem readStop_eq_none (hsign : c ≠ '-' ∧ c ≠ '+') (hc : c ≠ '\x7d' ∧ c ≠ '%') (r : Chars) :
    readStop kind (c :: r) = none := by
  have hhead : kind.closing.head? ≠ some c := by
    cases kind <;> simp [TagKind.closing, hc.1.symm, hc.2.symm]
  rw [readStop, readSign_of_no_sign hsign]
  cases hafter : Text.after? kind.closing (c :: r) with
  | none => simp [hafter]
  | some rest =>
    have hsplit := Text.after?_eq_some_iff.1 hafter
    cases kind <;> exact absurd (congrArg List.head? hsplit).symm hhead

/-- A name up to a character that it cannot go on with. -/
theorem scanTag_name (fuel : Nat) (nesting : Int) (hw : w.head?.any Text.isNameStart = true)
    (hchars : w.all Text.isNameChar = true) (hd : Text.isNameChar d = false) :
    scanTag (fuel + 1) kind nesting line (w ++ d :: r) =
      ⟨.name w, line⟩ :: scanTag fuel kind nesting line (d :: r) := by
  cases w with
  | nil => cases hw
  | cons c w =>
    have hstart : Text.isNameStart c = true := hw
    have hne {d : Char} (hd : Text.isNameStart d = false) : c ≠ d := ne_of_isNameStart hstart hd
    have hall := List.all_eq_true.1 hchars
    have hread := readToken_name (r := r) hstart (List.forall_mem_cons.1 hall).2 hd
    have hnesting : (Token.name (c :: w)).nesting = 0 := rfl
    rw [scanTag_token fuel nesting (isTagBlank_of_isNameStart hstart)
      (fun _ => readStop_eq_none ⟨hne rfl, hne rfl⟩ ⟨hne rfl, hne rfl⟩ _) hread rfl
      (fun hm => absurd (hall _ hm) (by decide)), hnesting, Int.add_zero]

/-- A mark that is not the start of the end of a tag. -/
theorem scanTag_mark (fuel : Nat) (nesting : Int) {m : Mark} (hread : readToken (c :: r) = (.mark m, r))
    (hblank : isTagBlank c = false) (hsign : c ≠ '-' ∧ c ≠ '+') (hc : c ≠ '\x7d' ∧ c ≠ '%') :
    scanTag (fuel + 1) kind nesting line (c :: r) =
      ⟨.mark m, line⟩ :: scanTag fuel kind (nesting + m.nesting) line r := by
  refine scanTag_token (w := []) fuel nesting hblank (fun _ => readStop_eq_none hsign hc r) hread rfl ?_
  rw [List.mem_singleton]
  rintro rfl
  cases hblank

end

namespace ScansTag

theorem blank (h : ScansTag kind line s ls) : ScansTag kind line (' ' :: s) ls := by
  intro fuel hfuel
  rw [List.length_cons] at hfuel
  rw [scanTag_blank, h fuel (by omega)]

/-- The end of a tag, with text behind it. -/
theorem stop (h : Scans line s ls) :
    ScansTag kind line (kind.closing ++ s) (⟨.stop kind, line⟩ :: ls) := by
  intro fuel hfuel
  have hclosing : kind.closing.length = 2 := by cases kind <;> rfl
  rw [List.length_append, hclosing] at hfuel
  obtain ⟨fuel, rfl⟩ : ∃ n, fuel = n + 1 := ⟨fuel - 1, by omega⟩
  have hscan := h fuel (by omega)
  cases kind <;>
  · rw [scanTag]
    exact congrArg _ hscan

/-- One token with what follows it. -/
theorem of_scanTag {w r : Chars} {l : Lexeme} (hw : w ≠ [])
    (hscan : ∀ fuel, scanTag (fuel + 1) kind 0 line (w ++ r) = l :: scanTag fuel kind 0 line r)
    (h : ScansTag kind line r ls) : ScansTag kind line (w ++ r) (l :: ls) := by
  intro fuel hfuel
  have hpos := List.length_pos_iff.2 hw
  rw [List.length_append] at hfuel
  obtain ⟨fuel, rfl⟩ : ∃ n, fuel = n + 1 := ⟨fuel - 1, by omega⟩
  rw [hscan, h fuel (by omega)]

/-- A name up to a character that it cannot go on with. -/
theorem name {w r : Chars} {d : Char} (hw : w.head?.any Text.isNameStart = true)
    (hchars : w.all Text.isNameChar = true) (hd : Text.isNameChar d = false)
    (h : ScansTag kind line (d :: r) ls) : ScansTag kind line (w ++ d :: r) (⟨.name w, line⟩ :: ls) := by
  refine of_scanTag ?_ (fun fuel => scanTag_name fuel 0 hw hchars hd) h
  rintro rfl
  cases hw

/-- A mark that is neither a bracket nor the start of the end of a tag. -/
theorem mark {c : Char} {m : Mark} {r : Chars} (hread : readToken (c :: r) = (.mark m, r)) (hnesting : m.nesting = 0)
    (hblank : isTagBlank c = false) (hsign : c ≠ '-' ∧ c ≠ '+') (hc : c ≠ '\x7d' ∧ c ≠ '%')
    (h : ScansTag kind line r ls) : ScansTag kind line (c :: r) (⟨.mark m, line⟩ :: ls) := by
  refine of_scanTag (w := [c]) (List.cons_ne_nil c []) (fun fuel => ?_) h
  exact (scanTag_mark fuel 0 hread hblank hsign hc).trans (by rw [hnesting, Int.add_zero])

/-- A sign in front of a blank does not start the end of a tag. -/
theorem sign {c : Char} {m : Mark} {r : Chars} (hread : readToken (c :: ' ' :: r) = (.mark m, ' ' :: r))
    (hnesting : m.nesting = 0) (hc : c = '-' ∨ c = '+') (h : ScansTag kind line (' ' :: r) ls) :
    ScansTag kind line (c :: ' ' :: r) (⟨.mark m, line⟩ :: ls) := by
  refine of_scanTag (w := [c]) (List.cons_ne_nil c []) (fun fuel => ?_) h
  have hstop : readStop kind (c :: ' ' :: r) = none := by
    rcases hc with rfl | rfl <;> cases kind <;> rfl
  have hblank : isTagBlank c = false := by rcases hc with rfl | rfl <;> rfl
  have hbreak : '\n' ∉ [c] := by rcases hc with rfl | rfl <;> decide
  exact (scanTag_token fuel 0 hblank (fun _ => hstop) hread rfl hbreak).trans (by rw [Token.nesting, hnesting]; rfl)

/-- A loop over values, up to what it goes over. -/
theorem forName {name r : Chars} (hw : name.head?.any Text.isNameStart = true) (hchars : name.all Text.isNameChar = true)
    (h : ScansTag kind line r ls) :
    ScansTag kind line (' ' :: ("for".toList ++ ' ' :: (name ++ ' ' :: ("in".toList ++ ' ' :: r))))
      (⟨.name "for".toList, line⟩ :: ⟨.name name, line⟩ :: ⟨.name "in".toList, line⟩ :: ls) :=
  .blank (.name rfl (by decide) rfl (.blank (.name hw hchars rfl (.blank (.name rfl (by decide) rfl h.blank)))))

/-- A loop over keys and values, up to what it goes over. -/
theorem forPair {key value r : Chars} (hkey : key.head?.any Text.isNameStart = true)
    (hkeyChars : key.all Text.isNameChar = true) (hvalue : value.head?.any Text.isNameStart = true)
    (hvalueChars : value.all Text.isNameChar = true) (h : ScansTag kind line r ls) :
    ScansTag kind line
      (' ' :: ("for".toList ++ ' ' :: (key ++ ',' :: ' ' :: (value ++ ' ' :: ("in".toList ++ ' ' :: r)))))
      (⟨.name "for".toList, line⟩ :: ⟨.name key, line⟩ :: ⟨.mark .comma, line⟩ :: ⟨.name value, line⟩ ::
        ⟨.name "in".toList, line⟩ :: ls) := by
  refine .blank (.name rfl (by decide) rfl (.blank (.name hkey hkeyChars rfl ?_)))
  refine .mark (by rfl) rfl rfl (by decide) (by decide) (.blank ?_)
  exact .name hvalue hvalueChars rfl (.blank (.name rfl (by decide) rfl h.blank))

end ScansTag

/-- An assignment up to its expression. -/
theorem Scans.set {name r : Chars} (hw : name.head?.any Text.isNameStart = true)
    (hchars : name.all Text.isNameChar = true) (h : ScansTag .statement line r ls) :
    Scans line ('\x7b' :: TagKind.statement.mark :: ' ' :: ("set".toList ++ ' ' :: (name ++ ' ' :: '=' :: ' ' :: r)))
      (⟨.start .statement, line⟩ :: ⟨.name "set".toList, line⟩ :: ⟨.name name, line⟩ :: ⟨.mark .assign, line⟩ :: ls) := by
  have hequals : readToken ('=' :: ' ' :: r) = (.mark .assign, ' ' :: r) := by cases r <;> rfl
  refine @Scans.tag _ _ _ .statement [] (by decide) (fun _ => rfl) (.blank (.name rfl (by decide) rfl (.blank ?_)))
  exact .name hw hchars rfl (.blank (.mark hequals rfl rfl (by decide) (by decide) h.blank))

/-- The tokens of a template that ends with a tag. -/
theorem tokens_of_scans (hlast : s.getLast? = some '\x7d') (h : Scans 1 s ls) : tokens s = ls := by
  rw [tokens, withoutLastBreak_of_getLast? hlast]
  exact h _ (by omega)

end ViewBridge.Template
