import ViewBridge.Proofs.Call.Scanning
/-!
# Scanning phrases

A phrase is a text inside of a tag. No token of it goes on with a blank, with a bar or with the end of parentheses, so
what stands behind such a character does not change its tokens, and neither does the kind of the tag. Where a phrase
closes no bracket that it does not open, the tag does not end inside of it, wherever it stands.

Results:
* `readToken_cases`: a token in a phrase fails, or it is the same whatever stands behind the phrase.
* `lexes_or_ends`: the tokens of a tag that a phrase stands in: the tag ends inside of the phrase, or the tokens are
  those of the phrase and those behind it.
* `Lexes.scanTag`: the tokens of a phrase inside of any brackets.
-/
namespace ViewBridge.Template

open Expression (isQuote isParenthesis)

/-- A character that no token goes on with, outside of all brackets. -/
def IsSeam (c : Char) : Prop := c = ' ' ∨ c = '|'

/-- A character that no token goes on with. -/
def IsBreak (c : Char) : Prop := IsSeam c ∨ c = ')'

/-- A character starts the same token of a text, whatever stands behind the text, and leaves the same end of it. -/
def StartsToken (c : Char) (s : Chars) (t : Token) (s' : Chars) : Prop :=
  s' <:+ s ∧ ∀ d r, IsBreak d → readToken (c :: (s ++ d :: r)) = (t, s' ++ d :: r)

/-! ## Tokens in front of a break -/

section
variable {c d : Char} {s r : Chars}

theorem ofPair?_of_isBreak (hd : IsBreak d) (c : Char) : Mark.ofPair? c d = none := by
  rcases hd with (rfl | rfl) | rfl <;> simp [Mark.ofPair?]

theorem isNameChar_of_isBreak (hd : IsBreak d) : Text.isNameChar d = false := by
  rcases hd with (rfl | rfl) | rfl <;> rfl

theorem next?_of_isBreak (hd : IsBreak d) (base : Nat) (part : NumberPart) : part.next? base d = none := by
  have hdigit : Text.isDigit d = false := by rcases hd with (rfl | rfl) | rfl <;> rfl
  have hhex : Text.hexValue? d = none := by rcases hd with (rfl | rfl) | rfl <;> rfl
  have hne (e : Char) (he : ¬ IsBreak e := by simp [IsBreak, IsSeam]) : d ≠ e := fun h => he (h ▸ hd)
  simp [NumberPart.next?, hdigit, hhex, hne '_', hne '.', hne 'e', hne 'E', hne '+', hne '-']

theorem baseOf_of_isBreak (hd : IsBreak d) (c : Char) : baseOf c d = 10 := by
  rcases hd with (rfl | rfl) | rfl <;> simp [baseOf]

theorem readNumberFrom_append (hd : IsBreak d) (base : Nat) (part : NumberPart) (s r : Chars) :
    readNumberFrom base part (s ++ d :: r) =
      ((readNumberFrom base part s).1, (readNumberFrom base part s).2.1, (readNumberFrom base part s).2.2 ++ d :: r) := by
  induction s generalizing part with
  | nil =>
    simp only [List.nil_append, readNumberFrom, next?_of_isBreak hd]
  | cons c s ih =>
    rw [List.cons_append, readNumberFrom, readNumberFrom]
    cases part.next? base c with
    | none => rfl
    | some next => simp only [ih next]

theorem suffix_readNumberFrom (base : Nat) (part : NumberPart) (s : Chars) :
    (readNumberFrom base part s).2.2 <:+ s := by
  conv_rhs => rw [(even_readNumberFrom base part s).2]
  exact List.suffix_append _ _

/-- The token that the characters of a number are, if they are one. -/
def numberToken? (base : Nat) (read : Chars × NumberPart × Chars) : Option Token :=
  let digits := read.1.filter (· != '_')
  if read.1.getLast? = some '_' then none
  else if read.2.1 = .whole ∨ read.2.1 = .based then
    (Text.readNat? base digits).bind fun n => if n < Nat.pow 2 128 then some (.int n) else none
  else (readFloat? digits).map .float

/-- A number in front of a break, or what fails to be one. -/
theorem exists_readNumber (hc : Text.isDigit c = true) (s : Chars) : ∃ (token : Option Token) (rest : Chars),
    rest <:+ s ∧ ∀ d r, IsBreak d → readNumber (c :: (s ++ d :: r)) =
      match token with
      | some t => (t, rest ++ d :: r)
      | none => (.failure .syntaxError, []) := by
  obtain ⟨next, hnext⟩ : ∃ next, NumberPart.whole.next? 10 c = some next := by
    rw [← Option.ne_none_iff_exists']
    unfold NumberPart.next?
    split_ifs <;> exact Option.some_ne_none _
  have hwhole (s : Chars) : (readNumberFrom 10 .whole (c :: s)).2.2 <:+ s := by
    rw [readNumberFrom, hnext]
    exact suffix_readNumberFrom 10 next s
  cases s with
  | nil =>
    refine ⟨numberToken? 10 (readNumberFrom 10 .whole [c]), _, hwhole [], fun d r hd => ?_⟩
    have hnumber : readNumberFrom 10 .whole (c :: d :: r) = _ := readNumberFrom_append hd 10 .whole [c] r
    simp only [readNumber, List.nil_append, baseOf_of_isBreak hd, if_true, hnumber]
    rfl
  | cons b s =>
    by_cases hbase : baseOf c b = 10
    · refine ⟨numberToken? 10 (readNumberFrom 10 .whole (c :: b :: s)), _, hwhole (b :: s), fun d r hd => ?_⟩
      have hnumber : readNumberFrom 10 .whole (c :: b :: (s ++ d :: r)) = _ :=
        readNumberFrom_append hd 10 .whole (c :: b :: s) r
      simp only [readNumber, List.cons_append, hbase, if_true, hnumber]
      rfl
    · refine ⟨numberToken? (baseOf c b) (readNumberFrom (baseOf c b) .based s), _,
        (suffix_readNumberFrom (baseOf c b) .based s).trans (List.suffix_cons b s), fun d r hd => ?_⟩
      simp only [readNumber, List.cons_append, hbase, if_false, List.drop_succ_cons, List.drop_zero,
        readNumberFrom_append hd]
      rfl

theorem readQuoted_cons {q : Char} (hc : c ≠ '\\') (s : Chars) : readQuoted q (c :: s) =
    if c = q then some ([], s) else (readQuoted q s).map fun (body, tail) => (c :: body, tail) := by
  rw [readQuoted]
  intro d rest hslash
  exact absurd hslash hc

/-- A quoted text that is closed in front of a break, or one that is not closed at all. -/
theorem exists_readQuoted {q : Char} (hq : isQuote q = true) (s : Chars) (hr : q ∉ d :: r) :
    readQuoted q (s ++ d :: r) = none ∨ ∃ body rest, rest <:+ s ∧ ∀ u, readQuoted q (s ++ u) = some (body, rest ++ u) := by
  have hnone {u : Chars} (hu : q ∉ u) : readQuoted q u = none := by
    fun_induction readQuoted q u <;> simp_all
  fun_induction readQuoted q s with
  | case1 => exact .inl (hnone hr)
  | case2 c rest ih =>
    rcases ih with ih | ⟨body, rest', hsuffix, ih⟩
    · left
      rw [List.cons_append, List.cons_append, readQuoted, ih]
      rfl
    · right
      refine ⟨'\\' :: c :: body, rest', hsuffix.trans ((List.suffix_cons c _).trans (List.suffix_cons _ _)), fun u => ?_⟩
      rw [List.cons_append, List.cons_append, readQuoted, ih]
      rfl
  | case3 rest =>
    have hslash : q ≠ '\\' := by
      rintro rfl
      cases hq
    refine .inr ⟨[], rest, List.suffix_cons _ _, fun u => ?_⟩
    rw [List.cons_append, readQuoted_cons hslash, if_pos rfl]
  | case4 c rest hescape hclose ih =>
    by_cases hslash : c = '\\'
    · -- a backslash at the end takes the break with it, and nothing behind the break closes the text
      subst hslash
      cases rest with
      | nil =>
        left
        rw [List.cons_append, List.nil_append, readQuoted, hnone (List.not_mem_of_not_mem_cons hr)]
        rfl
      | cons e rest => exact (hescape e rest rfl rfl).elim
    · rcases ih with ih | ⟨body, rest', hsuffix, ih⟩
      · left
        rw [List.cons_append, readQuoted_cons hslash, if_neg hclose, ih]
        rfl
      · right
        refine ⟨c :: body, rest', hsuffix.trans (List.suffix_cons _ _), fun u => ?_⟩
        rw [List.cons_append, readQuoted_cons hslash, if_neg hclose, ih]
        rfl

/-- A token that does not start with a mark of two characters. -/
theorem readToken_of_no_pair {s : Chars} (hpair : ∀ b ∈ s.head?, Mark.ofPair? c b = none)
    (hquote : isQuote c = false) : readToken (c :: s) =
      match Mark.ofChar? c with
      | some m => (.mark m, s)
      | none =>
        if Text.isDigit c then readNumber (c :: s)
        else if Text.isNameStart c then (.name (c :: s.takeWhile Text.isNameChar), s.dropWhile Text.isNameChar)
        else (.failure .syntaxError, []) := by
  have hquotes : ¬ (c = '\x27' ∨ c = '\x22') := by
    rintro (rfl | rfl) <;> cases hquote
  rw [readToken.eq_def]
  cases s with
  | nil =>
    dsimp only
    cases Mark.ofChar? c with
    | some m => rfl
    | none => exact if_neg hquotes
  | cons b s =>
    dsimp only
    rw [hpair b rfl, Option.map_none]
    cases Mark.ofChar? c with
    | some m => rfl
    | none => exact if_neg hquotes

/-- A token in a phrase fails, or it is the same whatever stands behind the phrase. -/
theorem readToken_cases (c : Char) (s : Chars) (hd : IsBreak d) (hr : ∀ q, isQuote q = true → q ∉ r) :
    (readToken (c :: (s ++ d :: r))).1.isFailure = true ∨
      ∃ t s', t.isFailure = false ∧ StartsToken c s t s' := by
  by_cases hquote : isQuote c = true
  · have hseam : c ≠ d := by
      rintro rfl
      rcases hd with (rfl | rfl) | rfl <;> cases hquote
    have hmem : c ∉ d :: r := List.not_mem_cons_of_ne_of_not_mem hseam (hr c hquote)
    rcases exists_readQuoted hquote s hmem with hopen | ⟨body, rest, hsuffix, hclosed⟩
    · left
      rw [readToken_quote hquote, readText, hopen]
      rfl
    · cases hbody : unescape body with
      | none =>
        left
        rw [readToken_quote hquote, readText, hclosed]
        simp only [hbody]
        rfl
      | some t =>
        refine .inr ⟨.text t, rest, rfl, hsuffix, fun d r hd => ?_⟩
        rw [readToken_quote hquote, readText, hclosed]
        simp only [hbody]
  · rw [Bool.not_eq_true] at hquote
    by_cases hpair : ∃ b rest m, s = b :: rest ∧ Mark.ofPair? c b = some m
    · obtain ⟨b, rest, m, rfl, hm⟩ := hpair
      refine .inr ⟨.mark m, rest, rfl, List.suffix_cons b rest, fun d r hd => ?_⟩
      rw [List.cons_append, readToken.eq_def]
      simp only [hm, Option.map_some]
    -- whether two characters make one mark is decided in front of the break
    have hunpaired {d : Char} (hd : IsBreak d) (r : Chars) : ∀ b ∈ (s ++ d :: r).head?, Mark.ofPair? c b = none := by
      intro b hb
      cases s with
      | nil =>
        obtain rfl : d = b := Option.some.inj hb
        exact ofPair?_of_isBreak hd c
      | cons e rest =>
        obtain rfl : e = b := Option.some.inj hb
        exact Option.eq_none_iff_forall_ne_some.2 fun m hm => hpair ⟨e, rest, m, rfl, hm⟩
    have hread {d : Char} (hd : IsBreak d) (r : Chars) := readToken_of_no_pair (hunpaired hd r) hquote
    cases hmark : Mark.ofChar? c with
    | some m =>
      refine .inr ⟨.mark m, s, rfl, List.suffix_refl s, fun d r hd => ?_⟩
      rw [hread hd r, hmark]
    | none =>
      simp only [hmark] at hread
      by_cases hdigit : Text.isDigit c = true
      · obtain ⟨token, rest, hsuffix, hnumber⟩ := exists_readNumber hdigit s
        simp only [hdigit, if_true] at hread
        cases token with
        | none =>
          left
          rw [hread hd r, hnumber d r hd]
          rfl
        | some t =>
          by_cases hfailure : t.isFailure = true
          · left
            rw [hread hd r, hnumber d r hd]
            exact hfailure
          · refine .inr ⟨t, rest, Bool.eq_false_iff.2 hfailure, hsuffix, fun d r hd => ?_⟩
            rw [hread hd r, hnumber d r hd]
      · by_cases hstart : Text.isNameStart c = true
        · refine .inr ⟨.name (c :: s.takeWhile Text.isNameChar), s.dropWhile Text.isNameChar, rfl,
            List.dropWhile_suffix _, fun d r hd => ?_⟩
          have hseam : Text.isNameChar d = false := isNameChar_of_isBreak hd
          rw [hread hd r, if_neg hdigit, if_pos hstart, Text.takeWhile_append_cons hseam,
            Text.dropWhile_append_cons hseam]
        · left
          rw [hread hd r, if_neg hdigit, if_neg hstart]
          rfl

/-- No token is the end of a tag. -/
theorem readToken_ne_stop (s : Chars) (kind : TagKind) : (readToken s).1 ≠ .stop kind := by
  intro hstop
  cases s with
  | nil => cases hstop
  | cons c s =>
    by_cases hquote : isQuote c = true
    · rw [readToken_quote hquote, readText] at hstop
      split at hstop
      · cases hstop
      · split at hstop <;> cases hstop
    by_cases hparenthesis : isParenthesis c = true
    · have hc : c = '(' ∨ c = ')' := by simpa [isParenthesis] using hparenthesis
      rcases hc with rfl | rfl <;> cases s <;> cases hstop
    have hok : (readToken (c :: s)).1.isFailure = false := by rw [hstop]; rfl
    have hplain := (readToken_even (Prod.eta _).symm hok (Bool.eq_false_iff.2 hquote) (Bool.eq_false_iff.2 hparenthesis)).1
    rw [hstop] at hplain
    cases hplain

/-! ## Phrases -/

/-- Inside of so many brackets and from a line on, a text is certain tokens, whatever stands behind it in a tag of
whatever kind; at its end there are other numbers of brackets and lines. -/
def Spells (depth : Int) (line : Nat) (s : Chars) (ls : List Lexeme) (depth' : Int) (line' : Nat) : Prop :=
  ∀ kind fuel d r, IsSeam d →
    scanTag (fuel + 1 + ls.length) kind depth line (s ++ d :: r) = ls ++ scanTag (fuel + 1) kind depth' line' (d :: r)

/-- Blanks are no tokens, but they may break lines. -/
theorem scanTag_blanks {w : Chars} (hw : ∀ c ∈ w, isTagBlank c = true) (kind : TagKind) (fuel : Nat) (depth : Int)
    (line : Nat) (s : Chars) :
    scanTag (fuel + 1) kind depth line (w ++ s) = scanTag (fuel + 1) kind depth (line + lineBreaks w) s := by
  have htake : (w ++ s).takeWhile isTagBlank = w ++ s.takeWhile isTagBlank := List.takeWhile_append_of_pos hw
  have hdrop : (w ++ s).dropWhile isTagBlank = s.dropWhile isTagBlank := List.dropWhile_append_of_pos hw
  have hbreaks (u : Chars) : line + lineBreaks (w ++ u) = line + lineBreaks w + lineBreaks u := by
    rw [lineBreaks, List.count_append, ← Nat.add_assoc]
    rfl
  rw [scanTag, scanTag, htake, hdrop, hbreaks]

/-- One token of a tag, where the tag does not end in front of it. -/
theorem scanTag_startsToken {t : Token} {s' : Chars} (h : StartsToken c s t s') (hok : t.isFailure = false)
    (hblank : isTagBlank c = false) (hd : IsBreak d) (kind : TagKind) (fuel : Nat) {depth : Int} (line : Nat) {r : Chars}
    (hstop : depth = 0 → readStop kind (c :: (s ++ d :: r)) = none) :
    scanTag (fuel + 1) kind depth line (c :: (s ++ d :: r)) =
      ⟨t, line⟩ :: scanTag fuel kind (depth + t.nesting) (line + (lineBreaks (c :: s) - lineBreaks s')) (s' ++ d :: r) := by
  have htake : (c :: (s ++ d :: r)).takeWhile isTagBlank = [] := by simp [hblank]
  have hdrop : (c :: (s ++ d :: r)).dropWhile isTagBlank = c :: (s ++ d :: r) := by simp [hblank]
  have hnone : (if depth = 0 then readStop kind (c :: (s ++ d :: r)) else none) = none := by
    split
    · exact hstop ‹_›
    · rfl
  have hlines : lineBreaks (c :: (s ++ d :: r)) - lineBreaks (s' ++ d :: r) = lineBreaks (c :: s) - lineBreaks s' := by
    rw [← List.cons_append, lineBreaks, lineBreaks, List.count_append, List.count_append, Nat.add_sub_add_right]
    rfl
  have hline : line + lineBreaks [] = line := rfl
  rw [scanTag, htake, hdrop]
  simp only [hnone, h.2 d r hd, hok, Bool.false_eq_true, if_false, hlines, hline]

/-- The end of a tag in front of a break, with its sign. -/
theorem exists_of_readStop {kind : TagKind} {stop : Option Char × Chars} (hd : IsBreak d)
    (h : readStop kind (s ++ d :: r) = some stop) :
    ∃ sign u, (sign = [] ∨ sign = ['-'] ∨ sign = ['+']) ∧ s = sign ++ (kind.closing ++ u) := by
  have hclosing {s rest : Chars} (hafter : Text.after? kind.closing (s ++ d :: r) = some rest) :
      ∃ u, s = kind.closing ++ u := by
    have hne (e : Char) (he : ¬ IsBreak e := by simp [IsBreak, IsSeam]) : d ≠ e := fun h => he (h ▸ hd)
    obtain ⟨a, ha, hkind⟩ : ∃ a, d ≠ a ∧ kind.closing = [a, '\x7d'] := by
      cases kind
      · exact ⟨'\x7d', hne _, rfl⟩
      · exact ⟨'%', hne _, rfl⟩
    have happend := Text.after?_eq_some_iff.1 hafter
    rw [hkind] at happend ⊢
    match s with
    | [] => exact absurd (List.cons.inj happend).1 ha
    | [b] => exact absurd (List.cons.inj (List.cons.inj happend).2).1 (hne _)
    | b :: e :: s =>
      obtain ⟨rfl, hrest⟩ := List.cons.inj happend
      obtain ⟨rfl, -⟩ := List.cons.inj hrest
      exact ⟨s, rfl⟩
  rw [readStop] at h
  cases s with
  | nil =>
    have hsign : d ≠ '-' ∧ d ≠ '+' := by rcases hd with (rfl | rfl) | rfl <;> decide
    rw [List.nil_append, readSign_of_no_sign hsign] at h
    obtain ⟨rest, hafter, -⟩ := Option.map_eq_some_iff.1 h
    obtain ⟨u, hu⟩ := hclosing (s := []) hafter
    exact ⟨[], u, .inl rfl, hu⟩
  | cons c s =>
    rw [List.cons_append, readSign] at h
    by_cases hsign : c = '-' ∨ c = '+'
    · rw [if_pos hsign] at h
      obtain ⟨rest, hafter, -⟩ := Option.map_eq_some_iff.1 h
      obtain ⟨u, rfl⟩ := hclosing hafter
      exact ⟨[c], u, by simpa using hsign, rfl⟩
    · rw [if_neg hsign] at h
      obtain ⟨rest, hafter, -⟩ := Option.map_eq_some_iff.1 h
      obtain ⟨u, hu⟩ := hclosing (s := c :: s) hafter
      exact ⟨[], u, .inl rfl, hu⟩

/-! ### Brackets -/

/-- How many brackets are open behind tokens. -/
def depthAfter (depth : Int) (ls : List Lexeme) : Int := ls.foldl (fun depth l => depth + l.token.nesting) depth

/-- Inside of so many brackets, none but those and their own are closed by tokens. -/
def Nested : Int → List Lexeme → Prop
  | _, [] => True
  | depth, l :: ls => 0 ≤ depth + l.token.nesting ∧ Nested (depth + l.token.nesting) ls

theorem Nested.mono {depth depth' : Int} {ls : List Lexeme} (h : Nested depth ls) (hle : depth ≤ depth') :
    Nested depth' ls := by
  induction ls generalizing depth depth' with
  | nil => trivial
  | cons l ls ih => exact ⟨by have := h.1; omega, ih h.2 (by omega)⟩

theorem Mark.nesting_eq (m : Mark) : m.nesting = if m.opens true then 1 else if m.closes true then -1 else 0 := by
  cases m <;> rfl

/-- Tokens close no more brackets than there are if none of them is the one that closes the last. -/
theorem nested_of_behind {n : Nat} {ls rest : List Lexeme} (hls : ∀ l ∈ ls, ∀ kind, l.token ≠ .stop kind)
    (h : behind true (n + 1) (ls ++ rest) = none) : Nested n ls := by
  induction ls generalizing n with
  | nil => trivial
  | cons l ls ih =>
    replace ⟨hl, hls⟩ := List.forall_mem_cons.1 hls
    obtain ⟨token, line⟩ := l
    have hsame (hnesting : token.nesting = 0) (h : behind true (n + 1) (ls ++ rest) = none) :
        Nested n (⟨token, line⟩ :: ls) := by
      rw [Nested, hnesting, Int.add_zero]
      exact ⟨Int.natCast_nonneg n, ih hls h⟩
    cases token with
    | mark m =>
      have hnesting : (Token.mark m).nesting = _ := m.nesting_eq
      rw [List.cons_append, behind] at h
      dsimp only at h
      rw [Nested, hnesting]
      split_ifs at h ⊢ with hopens hcloses
      · exact ⟨by omega, ih hls h⟩
      · cases n with
        | zero =>
          rw [behind_zero] at h
          cases h
        | succ n =>
          have hless : ((n + 1 : Nat) : Int) + -1 = n := by omega
          rw [hless]
          exact ⟨by omega, ih hls h⟩
      · exact ⟨by omega, by simpa using ih hls h⟩
    | stop kind => exact absurd rfl (hl kind)
    | _ => exact hsame rfl h

theorem depthAfter_add (depth depth' : Int) (ls : List Lexeme) :
    depthAfter (depth + depth') ls = depth + depthAfter depth' ls := by
  induction ls generalizing depth' with
  | nil => rfl
  | cons l ls ih =>
    rw [depthAfter, List.foldl_cons, Int.add_assoc]
    exact ih _

/-! ### The tokens of a phrase -/

/-- The tokens that a phrase is made of, from a line on; at its end there is another line. -/
inductive Lexes : (line : Nat) → Chars → List Lexeme → (line' : Nat) → Prop where
  | nil (line : Nat) : Lexes line [] [] line
  | blank {line line' : Nat} {c : Char} {s : Chars} {ls : List Lexeme} (hc : isTagBlank c = true)
      (h : Lexes (line + lineBreaks [c]) s ls line') : Lexes line (c :: s) ls line'
  | token {line line' : Nat} {c : Char} {s s' : Chars} {t : Token} {ls : List Lexeme} (hc : isTagBlank c = false)
      (hstarts : StartsToken c s t s') (hok : t.isFailure = false)
      (h : Lexes (line + (lineBreaks (c :: s) - lineBreaks s')) s' ls line') : Lexes line (c :: s) (⟨t, line⟩ :: ls) line'

namespace Lexes

variable {line line' : Nat} {ls : List Lexeme}

/-- No token is without characters. -/
theorem length_le (h : Lexes line s ls line') : ls.length ≤ s.length := by
  induction h with
  | nil => exact Nat.le_refl 0
  | blank hc h ih => exact ih.trans (Nat.le_succ _)
  | token hc hstarts hok h ih =>
    have hlength := hstarts.1.length_le
    simp only [List.length_cons]
    omega

theorem ne_stop (h : Lexes line s ls line') : ∀ l ∈ ls, ∀ kind, l.token ≠ .stop kind := by
  induction h with
  | nil => simp
  | blank hc h ih => exact ih
  | token hc hstarts hok h ih =>
    refine List.forall_mem_cons.2 ⟨fun kind hstop => ?_, ih⟩
    have htoken := hstarts.2 ' ' [] (.inl (.inl rfl))
    exact readToken_ne_stop _ kind ((congrArg Prod.fst htoken).trans hstop)

theorem isFailure_eq_false (h : Lexes line s ls line') : ∀ l ∈ ls, l.token.isFailure = false := by
  induction h with
  | nil => simp
  | blank hc h ih => exact ih
  | token hc hstarts hok h ih => exact List.forall_mem_cons.2 ⟨hok, ih⟩

theorem line_eq (h : Lexes line s ls line') : line' = line + lineBreaks s := by
  induction h with
  | nil => rfl
  | @blank line line' c s ls hc h ih =>
    have hbreaks : lineBreaks (c :: s) = lineBreaks [c] + lineBreaks s := @List.count_append _ _ _ [c] s
    omega
  | @token line line' c s s' t ls hc hstarts hok h ih =>
    have hbreaks : lineBreaks s' ≤ lineBreaks (c :: s) :=
      (hstarts.1.trans (List.suffix_cons c s)).sublist.count_le '\n'
    omega

/-- A character that is a mark alone. -/
theorem exists_mark (h : Lexes line (c :: s) ls line') (hc : isTagBlank c = false) {m : Mark}
    (hread : ∀ u, readToken (c :: u) = (.mark m, u)) :
    ∃ line₁ ls', ls = ⟨.mark m, line⟩ :: ls' ∧ Lexes line₁ s ls' line' := by
  cases h with
  | blank hblank =>
    rw [hc] at hblank
    cases hblank
  | token _ hstarts _ h =>
    have htoken := hstarts.2 ' ' [] (.inl (.inl rfl))
    rw [hread] at htoken
    obtain ⟨rfl, hs⟩ := Prod.mk.inj htoken
    obtain rfl := List.append_cancel_right hs
    exact ⟨_, _, rfl, h⟩

/-- What the end of a tag looks like closes a bracket. -/
theorem not_nested_closing {kind : TagKind} {u : Chars} (h : Lexes line (kind.closing ++ u) ls line') :
    ¬ Nested 0 ls := by
  have hbrace {line : Nat} {s : Chars} {ls : List Lexeme} (h : Lexes line ('\x7d' :: s) ls line') : ¬ Nested 0 ls := by
    obtain ⟨_, _, rfl, -⟩ := h.exists_mark rfl (m := .closeBrace) fun u => by cases u <;> rfl
    exact fun hnested => absurd (show (0 : Int) ≤ -1 from hnested.1) (by decide)
  cases kind with
  | output => exact hbrace h
  | statement =>
    obtain ⟨_, _, rfl, hrest⟩ := Lexes.exists_mark (c := '%') h rfl (m := .percent) fun u => by cases u <;> rfl
    exact fun hnested => hbrace hrest hnested.2

/-- A tag does not end inside of a phrase that closes no bracket which it does not open. -/
theorem readStop_eq_none (h : Lexes line s ls line') (hnested : Nested 0 ls) (hd : IsBreak d) (kind : TagKind)
    (r : Chars) : readStop kind (s ++ d :: r) = none := by
  rw [Option.eq_none_iff_forall_ne_some]
  intro stop hstop
  obtain ⟨sign, u, rfl | rfl | rfl, rfl⟩ := exists_of_readStop hd hstop
  · exact h.not_nested_closing hnested
  · obtain ⟨_, _, rfl, hrest⟩ := Lexes.exists_mark (c := '-') h rfl (m := .minus) fun u => by cases u <;> rfl
    exact hrest.not_nested_closing hnested.2
  · obtain ⟨_, _, rfl, hrest⟩ := Lexes.exists_mark (c := '+') h rfl (m := .plus) fun u => by cases u <;> rfl
    exact hrest.not_nested_closing hnested.2

/-- The tokens of a phrase inside of any brackets, in front of a break in a tag of any kind. -/
theorem scanTag (h : Lexes line s ls line') {depth : Int} (hnested : Nested depth ls) (kind : TagKind) (fuel : Nat)
    (hd : IsBreak d) (r : Chars) : scanTag (fuel + 1 + ls.length) kind depth line (s ++ d :: r) =
      ls ++ Template.scanTag (fuel + 1) kind (depthAfter depth ls) line' (d :: r) := by
  induction h generalizing depth with
  | nil => rfl
  | @blank line line' c s ls hc h ih =>
    rw [← ih hnested, Nat.add_right_comm]
    exact scanTag_blanks (w := [c]) (List.forall_mem_singleton.2 hc) ..
  | @token line line' c s s' t ls hc hstarts hok h ih =>
    have hstop (hdepth : depth = 0) : readStop kind (c :: (s ++ d :: r)) = none :=
      (Lexes.token hc hstarts hok h).readStop_eq_none (hdepth ▸ hnested) hd kind r
    rw [List.cons_append, List.length_cons, ← Nat.add_assoc, scanTag_startsToken hstarts hok hc hd kind _ line hstop,
      ih hnested.2]
    rfl

end Lexes

/-! ### Where a tag ends -/

theorem splitAtTag_suffix (s : Chars) : ((splitAtTag s).2 = none → (splitAtTag s).1 = s) ∧
    ∀ found ∈ (splitAtTag s).2, found.2 <:+ s := by
  induction s with
  | nil => exact ⟨fun _ => rfl, fun x hx => by cases hx⟩
  | cons a s ih =>
    cases s with
    | nil => exact ⟨fun _ => rfl, fun x hx => by cases hx⟩
    | cons b rest =>
      rw [splitAtTag]
      cases openingOf? a b with
      | some o =>
        refine ⟨fun h => (by cases h), fun x hx => ?_⟩
        obtain rfl := Option.some.inj hx
        exact (List.suffix_cons b rest).trans (List.suffix_cons a _)
      | none =>
        exact ⟨fun h => congrArg (a :: ·) (ih.1 h), fun x hx => (ih.2 x hx).trans (List.suffix_cons a _)⟩

theorem readSign_suffix (s : Chars) : (readSign s).2 <:+ s := by
  cases s with
  | nil => exact List.suffix_refl []
  | cons c s =>
    rw [readSign]
    split
    · exact List.suffix_cons c s
    · exact List.suffix_refl _

/-- Text without tokens is blank at its end, or it ends with a comment. -/
theorem blank_or_comment_of_scanText {fuel line : Nat} {trim : Bool} (h : scanText fuel trim line s = []) :
    (∀ c ∈ s.getLast?, Text.isBlank c = true) ∨ ['#', '\x7d'] <:+ s := by
  induction fuel generalizing trim line s with
  | zero =>
    rw [scanText] at h
    cases h
  | succ fuel ih =>
    rw [scanText] at h
    dsimp only at h
    generalize hlead : (if trim then s.takeWhile Text.isBlank else []) = lead at h
    have hsuffix := splitAtTag_suffix (s.drop lead.length)
    generalize splitAtTag (s.drop lead.length) = split at h hsuffix
    obtain ⟨before, found⟩ := split
    cases found with
    | none =>
      -- all of it has been dropped as blank
      left
      obtain rfl : before = [] := by
        by_contra hne
        simp only [dataTokens, if_neg hne] at h
        cases h
      have hdrop : s.drop lead.length = [] := (hsuffix.1 rfl).symm
      intro c hc
      cases trim with
      | true =>
        obtain rfl : s.takeWhile Text.isBlank = lead := hlead
        have hall : s.takeWhile Text.isBlank = s :=
          (List.takeWhile_prefix Text.isBlank).eq_of_length_le (List.drop_eq_nil_iff.1 hdrop)
        have hmem := List.mem_of_getLast? hc
        rw [← hall] at hmem
        exact List.mem_takeWhile_imp hmem
      | false =>
        obtain rfl : [] = lead := hlead
        obtain rfl : s = [] := hdrop
        cases hc
    | some found =>
      obtain ⟨opening, rest⟩ := found
      have hrest : rest <:+ s := (hsuffix.2 _ rfl).trans (List.drop_suffix _ _)
      have hinside := (readSign_suffix rest).trans hrest
      replace h := (List.append_eq_nil_iff.1 h).2
      cases opening with
      | tag kind =>
        cases kind with
        | output => cases h
        | statement =>
          dsimp only at h
          split at h
          · split at h <;> cases h
          · cases h
      | comment =>
        dsimp only at h
        cases hcut : Text.cut? ['#', '\x7d'] (readSign rest).2 with
        | none =>
          rw [hcut] at h
          cases h
        | some parts =>
          obtain ⟨body, behind⟩ := parts
          rw [hcut] at h
          have hbehind : ['#', '\x7d'] ++ behind <:+ s := by
            refine List.IsSuffix.trans ?_ hinside
            rw [Text.cut?_eq_some hcut, List.append_assoc]
            exact List.suffix_append body _
          by_cases hnil : behind = []
          · rw [hnil, List.append_nil] at hbehind
            exact .inr hbehind
          · have hend : behind <:+ s := (List.suffix_append _ behind).trans hbehind
            obtain ⟨front, rfl⟩ := hend
            refine (ih h).imp (fun hblank => ?_) fun hcomment => hcomment.trans (List.suffix_append front behind)
            rwa [List.getLast?_append_of_ne_nil _ hnil]

/-- Where a tag ends in front of another end of a tag, there are tokens behind it. -/
theorem scanText_ne_nil_of_readStop {kind : TagKind} {sign : Option Char} {rest : Chars}
    (h : readStop kind (c :: (s ++ ' ' :: kind.closing)) = some (sign, rest)) (fuel line : Nat) (trim : Bool) :
    scanText fuel trim line rest ≠ [] := by
  obtain ⟨a, ha, hclosing⟩ : ∃ a, a ≠ '#' ∧ kind.closing = [a, '\x7d'] := by
    cases kind <;> exact ⟨_, by decide, rfl⟩
  have hwhole : kind.closing <:+ c :: (s ++ ' ' :: kind.closing) :=
    ((List.suffix_cons ' ' _).trans (List.suffix_append s _)).trans (List.suffix_cons c _)
  have hstop : readStop kind (c :: (s ++ ' ' :: kind.closing)) = (Text.after? kind.closing
      (readSign (c :: (s ++ ' ' :: kind.closing))).2).map ((readSign (c :: (s ++ ' ' :: kind.closing))).1, ·) := rfl
  rw [hstop] at h
  obtain ⟨rest', hafter, hpair⟩ := Option.map_eq_some_iff.1 h
  obtain ⟨-, rfl⟩ := Prod.mk.inj hpair
  have hsigned := Text.after?_eq_some_iff.1 hafter
  have hrest : rest' <:+ c :: (s ++ ' ' :: kind.closing) := by
    refine List.IsSuffix.trans ?_ (readSign_suffix _)
    rw [hsigned]
    exact List.suffix_append _ rest'
  have hne : rest' ≠ [] := by
    rintro rfl
    have hlength := congrArg List.length hsigned
    rw [readSign] at hlength
    split at hlength <;> simp [hclosing] at hlength
  intro hnil
  rcases blank_or_comment_of_scanText hnil with hblank | hcomment
  · obtain ⟨front, hfront⟩ := hrest
    have hlast : rest'.getLast? = some '\x7d' := by
      rw [← List.getLast?_append_of_ne_nil front hne, hfront, hclosing, ← List.cons_append, List.getLast?_append]
      rfl
    exact absurd (hblank _ hlast) (by decide)
  · have hlength : ['#', '\x7d'].length = kind.closing.length := by rw [hclosing]; rfl
    have heq := (List.suffix_of_suffix_length_le (hcomment.trans hrest) hwhole hlength.le).eq_of_length hlength
    rw [hclosing] at heq
    exact ha (List.cons.inj heq).1.symm

theorem not_mem_closing_of_isQuote (kind : TagKind) : ∀ q, isQuote q = true → q ∉ kind.closing := by
  intro q hq hmem
  have hall : ∀ c ∈ kind.closing, isQuote c = false := by
    cases kind <;> exact List.forall_mem_cons.2 ⟨by decide, List.forall_mem_singleton.2 (by decide)⟩
  rw [hall q hmem] at hq
  cases hq

/-- Behind a phrase whose brackets are closed a tag ends; otherwise its end is taken for marks. -/
theorem scanTag_closing (kind : TagKind) (depth : Int) (line : Nat) :
    ∃ ls t, (∀ fuel, scanTag (fuel + 3) kind depth line (' ' :: kind.closing) = ls ++ [⟨t, line⟩]) ∧
      (depth = 0 → ls = [] ∧ t = .stop kind) ∧ (depth ≠ 0 → t = .mark .closeBrace) := by
  by_cases hdepth : depth = 0
  · refine ⟨[], .stop kind, fun fuel => ?_, fun _ => ⟨rfl, rfl⟩, fun hne => absurd hdepth hne⟩
    rw [scanTag_blank, hdepth]
    cases kind <;> rfl
  · have hlast (fuel : Nat) (depth : Int) :
        scanTag (fuel + 2) kind depth line ['\x7d'] = [⟨.mark .closeBrace, line⟩] :=
      scanTag_token (c := '\x7d') (w := []) (fuel + 1) depth rfl (fun _ => by cases kind <;> rfl) rfl rfl (by decide)
    have hfirst {c : Char} {m : Mark} (hblank : isTagBlank c = false) (hbreak : '\n' ∉ [c])
        (hread : readToken [c, '\x7d'] = (.mark m, ['\x7d'])) (fuel : Nat) :
        scanTag (fuel + 3) kind depth line [c, '\x7d'] = [⟨.mark m, line⟩] ++ [⟨.mark .closeBrace, line⟩] := by
      have hscan := @scanTag_token kind line c [] ['\x7d'] (fuel + 2) depth _ hblank
        (fun h => absurd h hdepth) hread rfl hbreak
      exact hscan.trans (congrArg _ (hlast fuel _))
    cases kind with
    | output =>
      exact ⟨_, _, fun fuel => (scanTag_blank ..).trans (hfirst rfl (by decide) rfl fuel), fun h => absurd h hdepth,
        fun _ => rfl⟩
    | statement =>
      exact ⟨_, _, fun fuel => (scanTag_blank ..).trans (hfirst rfl (by decide) rfl fuel), fun h => absurd h hdepth,
        fun _ => rfl⟩

/-- The tokens of a tag that a phrase stands in: the tag ends or fails before the end of the phrase, or the tokens are
those of the phrase and those behind it. -/
theorem lexes_or_ends (kind : TagKind) (s : Chars) {fuel : Nat} (hfuel : s.length + 3 < fuel) (depth : Int) (line : Nat) :
    (∃ ls l rest, scanTag fuel kind depth line (s ++ ' ' :: kind.closing) = ls ++ l :: rest ∧
      (l.token.isFailure = true ∨ (∃ kind', l.token = .stop kind') ∧ rest ≠ [])) ∨
    ∃ ls line' fuel', Lexes line s ls line' ∧ scanTag fuel kind depth line (s ++ ' ' :: kind.closing) =
      ls ++ scanTag (fuel' + 3) kind (depthAfter depth ls) line' (' ' :: kind.closing) := by
  induction hn : s.length using Nat.strongRecOn generalizing s fuel depth line with
  | ind n ih =>
    obtain ⟨fuel, rfl⟩ : ∃ m, fuel = m + 4 := ⟨fuel - 4, by omega⟩
    cases s with
    | nil => exact .inr ⟨[], line, fuel + 1, .nil line, rfl⟩
    | cons c s =>
      rw [List.length_cons] at hn hfuel
      by_cases hblank : isTagBlank c = true
      · have hstep : scanTag (fuel + 4) kind depth line (c :: (s ++ ' ' :: kind.closing)) = _ :=
          scanTag_blanks (w := [c]) (List.forall_mem_singleton.2 hblank) kind (fuel + 3) depth line _
        rw [List.cons_append, hstep]
        refine (ih s.length (by omega) s (show s.length + 3 < fuel + 4 by omega) depth _ rfl).imp_right ?_
        rintro ⟨ls, line', fuel', hlexes, hscan⟩
        exact ⟨ls, line', fuel', .blank hblank hlexes, hscan⟩
      rw [Bool.not_eq_true] at hblank
      have htake : (c :: (s ++ ' ' :: kind.closing)).takeWhile isTagBlank = [] := by simp [hblank]
      have hdrop : (c :: (s ++ ' ' :: kind.closing)).dropWhile isTagBlank = c :: (s ++ ' ' :: kind.closing) := by
        simp [hblank]
      have hline : line + lineBreaks [] = line := rfl
      cases hstop : if depth = 0 then readStop kind (c :: (s ++ ' ' :: kind.closing)) else none with
      | some stop =>
        obtain ⟨sign, rest⟩ := stop
        have hread : readStop kind (c :: (s ++ ' ' :: kind.closing)) = some (sign, rest) := by
          split at hstop
          · exact hstop
          · cases hstop
        refine .inl ⟨[], ⟨.stop kind, line⟩, scanText (fuel + 3) (sign == some '-') line rest, ?_,
          .inr ⟨⟨kind, rfl⟩, scanText_ne_nil_of_readStop hread _ _ _⟩⟩
        rw [List.cons_append, scanTag, htake, hdrop]
        simp only [hstop, hline, List.nil_append]
      | none =>
        rcases readToken_cases c s (.inl (.inl rfl) : IsBreak ' ') (not_mem_closing_of_isQuote kind) with
          hfailure | ⟨t, s', hok, hstarts⟩
        · refine .inl ⟨[], ⟨(readToken (c :: (s ++ ' ' :: kind.closing))).1, line⟩, [], ?_, .inl hfailure⟩
          rw [List.cons_append, scanTag, htake, hdrop]
          simp only [hstop, hfailure, if_true, hline, List.nil_append]
        · have hlength := hstarts.1.length_le
          have hnone (hdepth : depth = 0) : readStop kind (c :: (s ++ ' ' :: kind.closing)) = none := by
            rwa [if_pos hdepth] at hstop
          have hstep := scanTag_startsToken hstarts hok hblank (.inl (.inl rfl)) kind (fuel + 3) line hnone
          rw [List.cons_append, hstep]
          rcases ih s'.length (by omega) s' (show s'.length + 3 < fuel + 3 by omega) (depth + t.nesting)
            (line + (lineBreaks (c :: s) - lineBreaks s')) rfl with
            ⟨ls, l, rest, hscan, hl⟩ | ⟨ls, line', fuel', hlexes, hscan⟩
          · exact .inl ⟨⟨t, line⟩ :: ls, l, rest, by rw [hscan, List.cons_append], hl⟩
          · exact .inr ⟨⟨t, line⟩ :: ls, line', fuel', .token hblank hstarts hok hlexes, by
              rw [hscan, List.cons_append]
              rfl⟩

end

end ViewBridge.Template
