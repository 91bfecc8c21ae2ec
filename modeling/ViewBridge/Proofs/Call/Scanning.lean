import ViewBridge.Proofs.Call.Arguments
import ViewBridge.Proofs.Template.Tokens
/-!
# Scanning calls

No token but the literals has a quote or a parenthesis inside of it, and the literals of a template end where
those of an expression do. So the parentheses among the tokens close what they close in the text.

Results:
* `readToken_even`: what a token that is no literal and no parenthesis is made of.
* `Closes.scanTag`: what a parenthesis closes in a text, it closes among the tokens.
* `tokens_call`: the tokens of a call in raw output, up to its arguments.
-/
namespace ViewBridge.Template

open Expression (isQuote isParenthesis Even Mode shuts shuts_cons shuts_append_of_not_mem)

/-! ## Parentheses among tokens -/

/-- Whether a mark opens a bracket, where parentheses are brackets and the others may be. -/
def Mark.opens (all : Bool) : Mark → Bool
  | openParen => true
  | openBracket | openBrace => all
  | _ => false

/-- Whether a mark closes such a bracket. -/
def Mark.closes (all : Bool) : Mark → Bool
  | closeParen => true
  | closeBracket | closeBrace => all
  | _ => false

/-- The tokens behind the bracket that closes the last of so many, if that is in the same tag. -/
def behind (all : Bool) : Nat → List Lexeme → Option (List Lexeme)
  | 0, ts => some ts
  | _ + 1, [] => none
  | n + 1, l :: ts =>
    match l.token with
    | .mark m => behind all (if m.opens all then n + 2 else if m.closes all then n else n + 1) ts
    | .stop _ => none
    | _ => behind all (n + 1) ts

/-- Whether a token is neither a bracket that counts nor the end of a tag. -/
def Token.isPlain (all : Bool) : Token → Bool
  | .mark m => !m.opens all && !m.closes all
  | .stop _ => false
  | _ => true

section
variable {all : Bool}

theorem behind_zero (ts : List Lexeme) : behind all 0 ts = some ts := by
  cases ts <;> rfl

theorem behind_of_isPlain {l : Lexeme} (h : l.token.isPlain all = true) (n : Nat) (ts : List Lexeme) :
    behind all (n + 1) (l :: ts) = behind all (n + 1) ts := by
  obtain ⟨token, line⟩ := l
  cases token with
  | mark m =>
    obtain ⟨hopens, hcloses⟩ : m.opens all = false ∧ m.closes all = false := by simpa [Token.isPlain] using h
    rw [behind]
    simp only [hopens, hcloses, Bool.false_eq_true, if_false]
  | stop => cases h
  | _ => rfl

end

/-! ## Tokens without quotes -/

section
variable {c : Char} {rest : Chars}

theorem even_of_ofChar? {m : Mark} (h : Mark.ofChar? c = some m) (hparenthesis : isParenthesis c = false) :
    Even [c] ∧ (Token.mark m).isPlain false = true := by
  have hcase {d : Char} {a : Mark} {r : Option Mark} (h : (if c = d then some a else r) = some m) :
      (c = d ∧ a = m) ∨ r = some m := by
    split at h
    · exact .inl ⟨‹_›, Option.some.inj h⟩
    · exact .inr h
  unfold Mark.ofChar? at h
  repeat' rcases hcase h with ⟨rfl, rfl⟩ | h
  all_goals
    first
      | exact ⟨.of_all (by decide), rfl⟩
      | cases hparenthesis
      | cases h

theorem even_of_ofPair? {d : Char} {m : Mark} (h : Mark.ofPair? c d = some m) :
    Even [c, d] ∧ (Token.mark m).isPlain false = true := by
  have hcase {c' d' : Char} {a : Mark} {r : Option Mark} (h : (if c = c' ∧ d = d' then some a else r) = some m) :
      (c = c' ∧ d = d' ∧ a = m) ∨ r = some m := by
    split at h
    · rename_i hpair
      exact .inl ⟨hpair.1, hpair.2, Option.some.inj h⟩
    · exact .inr h
  unfold Mark.ofPair? at h
  repeat' rcases hcase h with ⟨rfl, rfl, rfl⟩ | h
  all_goals
    first
      | exact ⟨.of_all (by decide), rfl⟩
      | cases h

theorem isNameChar_of_hexValue? (h : (Text.hexValue? c).isSome = true) : Text.isNameChar c = true := by
  simp only [Text.isNameChar, Text.isNameStart, Text.isLetter, Text.isDigit, Bool.or_eq_true, Bool.and_eq_true,
    decide_eq_true_eq]
  unfold Text.hexValue? at h
  split at h
  · rename_i hdigit
    exact .inr hdigit
  · split at h
    · rename_i hlower
      exact .inl (.inl (.inl ⟨hlower.1, Char.le_trans hlower.2 (by decide)⟩))
    · split at h
      · rename_i hupper
        exact .inl (.inl (.inr ⟨hupper.1, Char.le_trans hupper.2 (by decide)⟩))
      · cases h

theorem even_of_next? {base : Nat} {part next : NumberPart} (h : part.next? base c = some next) : Even [c] := by
  unfold NumberPart.next? at h
  split_ifs at h with hunder hdot hexponent hsign hdigit _ hhex
  · subst hunder
    exact .of_all (by decide)
  · obtain ⟨rfl, -⟩ := hdot
    exact .of_all (by decide)
  · rcases hexponent.1 with rfl | rfl <;> exact .of_all (by decide)
  · rcases hsign.1 with rfl | rfl <;> exact .of_all (by decide)
  · exact .name (Bool.or_eq_true_iff.2 (.inr hdigit))
  · exact .name (Bool.or_eq_true_iff.2 (.inr hdigit))
  · exact .name (isNameChar_of_hexValue? hhex.2.2)

theorem even_readNumberFrom (base : Nat) (part : NumberPart) (s : Chars) :
    Even (readNumberFrom base part s).1 ∧ s = (readNumberFrom base part s).1 ++ (readNumberFrom base part s).2.2 := by
  induction s generalizing part with
  | nil => exact ⟨.of_all rfl, rfl⟩
  | cons c s ih =>
    rw [readNumberFrom]
    cases hnext : part.next? base c with
    | none => exact ⟨.of_all rfl, rfl⟩
    | some next =>
      obtain ⟨heven, hs⟩ := ih next
      exact ⟨Even.append (s := [c]) (even_of_next? hnext) heven, congrArg (c :: ·) hs⟩

theorem even_of_baseOf {a b : Char} (h : baseOf a b ≠ 10) : Even [a, b] := by
  unfold baseOf at h
  split_ifs at h with ha hb ho hx
  · exact absurd rfl h
  all_goals obtain rfl := not_not.1 ha
  · rcases hb with rfl | rfl <;> exact .of_all (by decide)
  · rcases ho with rfl | rfl <;> exact .of_all (by decide)
  · rcases hx with rfl | rfl <;> exact .of_all (by decide)
  · exact absurd rfl h

/-- The token of a number, with the text that is left if there is one. -/
theorem isPlain_of_number {base : Nat} {written digits rest tail : Chars} {last : NumberPart} {t : Token}
    (h : (match (if written.getLast? = some '_' then none
        else if last = .whole ∨ last = .based then
          (Text.readNat? base digits).bind fun n => if n < Nat.pow 2 128 then some (.int n) else none
        else (readFloat? digits).map .float : Option Token) with
      | some t => (t, rest)
      | none => (.failure .syntaxError, [])) = (t, tail)) (hok : t.isFailure = false) :
    t.isPlain false = true ∧ tail = rest := by
  split at h
  · rename_i t' htoken
    obtain ⟨rfl, rfl⟩ := Prod.mk.inj h
    refine ⟨?_, rfl⟩
    split_ifs at htoken
    · obtain ⟨n, -, hn⟩ := Option.bind_eq_some_iff.1 htoken
      split at hn
      · rw [← Option.some.inj hn]
        rfl
      · cases hn
    · obtain ⟨x, -, rfl⟩ := Option.map_eq_some_iff.1 htoken
      rfl
  · obtain ⟨rfl, -⟩ := Prod.mk.inj h
    cases hok

theorem readNumberFrom_ne_nil (h : Text.isDigit c = true) (part : NumberPart) (s : Chars) :
    (readNumberFrom 10 part (c :: s)).1 ≠ [] := by
  have hnext : part.next? 10 c ≠ none := by
    unfold NumberPart.next?
    split_ifs <;> exact Option.some_ne_none _
  obtain ⟨next, hnext⟩ := Option.ne_none_iff_exists'.1 hnext
  rw [readNumberFrom, hnext]
  exact List.cons_ne_nil _ _

/-- What a number is made of, and what is left behind it. -/
theorem readNumber_even {s tail : Chars} {t : Token} (h : readNumber (c :: s) = (t, tail))
    (hok : t.isFailure = false) (hc : Text.isDigit c = true) :
    t.isPlain false = true ∧ ∃ used, c :: s = used ++ tail ∧ Even used ∧ used ≠ [] := by
  have hne := readNumberFrom_ne_nil hc .whole s
  have hwhole := even_readNumberFrom 10 .whole (c :: s)
  unfold readNumber at h
  cases s with
  | nil =>
    simp only [if_true] at h
    obtain ⟨hplain, rfl⟩ := isPlain_of_number h hok
    exact ⟨hplain, _, hwhole.2, hwhole.1, hne⟩
  | cons b s =>
    by_cases hbase : baseOf c b = 10
    · simp only [hbase, if_true] at h
      obtain ⟨hplain, rfl⟩ := isPlain_of_number h hok
      exact ⟨hplain, _, hwhole.2, hwhole.1, hne⟩
    · obtain ⟨heven, hs⟩ := even_readNumberFrom (baseOf c b) .based s
      simp only [hbase, if_false] at h
      obtain ⟨hplain, rfl⟩ := isPlain_of_number h hok
      exact ⟨hplain, c :: b :: (readNumberFrom (baseOf c b) .based s).1, congrArg (fun s => c :: b :: s) hs,
        Even.append (s := [c, b]) (even_of_baseOf hbase) heven, List.cons_ne_nil _ _⟩

/-- A token that is no literal and no parenthesis has no quote and no parenthesis in it. -/
theorem readToken_even {t : Token} {tail : Chars} (h : readToken (c :: rest) = (t, tail))
    (hok : t.isFailure = false) (hquote : isQuote c = false) (hparenthesis : isParenthesis c = false) :
    t.isPlain false = true ∧ ∃ used, c :: rest = used ++ tail ∧ Even used ∧ used ≠ [] := by
  have hquotes : ¬ (c = '\x27' ∨ c = '\x22') := by
    rintro (rfl | rfl) <;> cases hquote
  unfold readToken at h
  simp only [hquotes, if_false] at h
  split at h
  · rename_i m tail' hpair
    obtain ⟨rfl, rfl⟩ := Prod.mk.inj h
    cases rest with
    | nil => cases hpair
    | cons d rest =>
      obtain ⟨m', hm, hpair⟩ := Option.map_eq_some_iff.1 hpair
      obtain ⟨rfl, rfl⟩ := Prod.mk.inj hpair
      obtain ⟨heven, hplain⟩ := even_of_ofPair? hm
      exact ⟨hplain, [c, d], rfl, heven, List.cons_ne_nil _ _⟩
  · split at h
    · rename_i m hm
      obtain ⟨rfl, rfl⟩ := Prod.mk.inj h
      obtain ⟨heven, hplain⟩ := even_of_ofChar? hm hparenthesis
      exact ⟨hplain, [c], rfl, heven, List.cons_ne_nil _ _⟩
    · split_ifs at h with hdigit hstart
      · exact readNumber_even h hok hdigit
      · obtain ⟨rfl, rfl⟩ := Prod.mk.inj h
        refine ⟨rfl, c :: rest.takeWhile Text.isNameChar, ?_, ?_, List.cons_ne_nil _ _⟩
        · rw [List.cons_append, List.takeWhile_append_dropWhile]
        · intro d hd
          rcases List.mem_cons.1 hd with rfl | hd
          · exact Even.name (Text.isNameChar_of_isNameStart hstart) _ (List.mem_singleton.2 rfl)
          · exact Even.name (List.mem_takeWhile_imp hd) _ (List.mem_singleton.2 rfl)
      · obtain ⟨rfl, -⟩ := Prod.mk.inj h
        cases hok

theorem readToken_quote (hquote : isQuote c = true) : readToken (c :: rest) = readText c rest := by
  have hc : c = '\x27' ∨ c = '\x22' := by simpa [isQuote] using hquote
  have hpair (d : Char) : Mark.ofPair? c d = none := by
    rcases hc with rfl | rfl <;> rfl
  have hmark : Mark.ofChar? c = none := by
    rcases hc with rfl | rfl <;> rfl
  rw [readToken.eq_def]
  simp only [hmark, hc, if_true]
  cases rest <;> simp only [hpair, Option.map_none]

end

theorem even_of_isTagBlank {s : Chars} (h : ∀ c ∈ s, isTagBlank c = true) : Even s := by
  intro c hc
  have hblank := h c hc
  simp only [isTagBlank, Bool.or_eq_true, beq_iff_eq] at hblank
  rcases hblank with (((rfl | rfl) | rfl) | rfl) | rfl <;> decide

/-! ## Closing parentheses -/

/-- A literal ends where it ends for the reader of expressions. -/
theorem shuts_of_readQuoted {q : Char} (hq : isQuote q = true) {depth : Nat} {s tail body rest : Chars}
    (h : shuts (.inside q) depth s = true) (hread : readQuoted q (s ++ tail) = some (body, rest)) :
    ∃ s', rest = s' ++ tail ∧ s'.length < s.length ∧ shuts .outside depth s' = true := by
  induction hn : s.length using Nat.strongRecOn generalizing s body with
  | ind n ih =>
    have hmore {u s' body' : Chars} (hlen : u ++ s' = s) (hne : u ≠ []) (hs : shuts (.inside q) depth s' = true)
        (hread : readQuoted q (s' ++ tail) = some (body', rest)) :
        ∃ s', rest = s' ++ tail ∧ s'.length < n ∧ shuts .outside depth s' = true := by
      have hlength := congrArg List.length hlen
      rw [List.length_append] at hlength
      have hpos := List.length_pos_iff.2 hne
      obtain ⟨s'', hrest, hless, hshuts⟩ := ih s'.length (by omega) hs hread rfl
      exact ⟨s'', hrest, by omega, hshuts⟩
    match s, h with
    | [], h => cases h
    | c :: s, h =>
      by_cases hc : c = '\\'
      · subst hc
        cases s with
        | nil => cases h
        | cons d s =>
          obtain ⟨r, hr, hbody⟩ := Option.map_eq_some_iff.1 hread
          obtain ⟨-, rfl⟩ := Prod.mk.inj hbody
          exact hmore (u := ['\\', d]) rfl (List.cons_ne_nil _ _) h hr
      · rw [List.cons_append, readQuoted] at hread
        · rw [shuts_cons (.inl Mode.noConfusion), Mode.step, if_neg hc] at h
          split at hread
          · rename_i hclose
            obtain ⟨-, rfl⟩ := Prod.mk.inj (Option.some.inj hread)
            rw [if_pos (by simp [hclose, hq])] at h
            exact ⟨s, rfl, by rw [← hn, List.length_cons]; omega, h⟩
          · rename_i hclose
            obtain ⟨r, hr, hbody⟩ := Option.map_eq_some_iff.1 hread
            obtain ⟨-, rfl⟩ := Prod.mk.inj hbody
            rw [if_neg (by simp [hclose])] at h
            exact hmore (u := [c]) rfl (List.cons_ne_nil _ _) h hr
        · intro d rest hslash
          exact absurd hslash hc

/-- Text that closes so many parentheses and ends where the last of them is closed. -/
def Closes : Nat → Chars → Prop
  | 0, s => s = []
  | n + 1, s => shuts .outside n s = true

namespace Closes

variable {n : Nat} {c : Char} {s tail rest : Chars} {t : Token}

/-- Text that has nothing to do with parentheses can be left out. -/
theorem of_append {used : Chars} (h : Closes (n + 1) (used ++ s)) (hused : Even used) : Closes (n + 1) s := by
  have hshuts := shuts_append_of_not_mem (fun c hc => (hused c hc).2) .outside n s
  rw [Closes] at h ⊢
  by_cases hnil : used = []
  · rwa [hnil] at h
  · rwa [hshuts, Mode.run_bare _ _ hused.bare hnil] at h

/-- What is read of such a text is not more than there is of it. -/
theorem exists_eq_append {used : Chars} (h : Closes (n + 1) s) (hused : Even used) (heq : s ++ tail = used ++ rest) :
    ∃ s', s = used ++ s' ∧ rest = s' ++ tail := by
  rcases List.append_eq_append_iff.1 heq with ⟨more, hmore, -⟩ | ⟨s', hs, hrest⟩
  · obtain ⟨init, hlast⟩ := List.getLast?_eq_some_iff.1 (Expression.getLast?_of_shuts h)
    have hmem : ')' ∈ used := by
      rw [hmore, hlast]
      simp
    cases (hused _ hmem).2
  · exact ⟨s', hs, hrest⟩

/-- A token of such a text leaves such a text behind, and does to the parentheses what its text does. -/
theorem readToken (h : Closes (n + 1) (c :: s)) (hread : Template.readToken (c :: s ++ tail) = (t, rest))
    (hok : t.isFailure = false) :
    ∃ m s', rest = s' ++ tail ∧ s'.length ≤ s.length ∧ Closes m s' ∧
      ∀ line ts, behind false (n + 1) (⟨t, line⟩ :: ts) = behind false m ts := by
  by_cases hparenthesis : isParenthesis c = true
  · have hc : c = '(' ∨ c = ')' := by simpa [isParenthesis] using hparenthesis
    rcases hc with rfl | rfl
    · have hopen (s : Chars) : Template.readToken ('(' :: s) = (.mark .openParen, s) := by
        cases s <;> rfl
      obtain ⟨rfl, rfl⟩ := Prod.mk.inj ((hopen _).symm.trans hread)
      exact ⟨n + 2, s, rfl, Nat.le_refl _, h, fun _ _ => rfl⟩
    · have hclose (s : Chars) : Template.readToken (')' :: s) = (.mark .closeParen, s) := by
        cases s <;> rfl
      obtain ⟨rfl, rfl⟩ := Prod.mk.inj ((hclose _).symm.trans hread)
      refine ⟨n, s, rfl, Nat.le_refl _, ?_, fun _ _ => rfl⟩
      cases n with
      | zero => exact List.isEmpty_iff.1 h
      | succ n => exact h
  rw [Bool.not_eq_true] at hparenthesis
  by_cases hquote : isQuote c = true
  · rw [Closes, shuts_cons (.inr hparenthesis), Mode.step, hquote] at h
    rw [List.cons_append, readToken_quote hquote, readText] at hread
    split at hread
    · obtain ⟨rfl, -⟩ := Prod.mk.inj hread
      cases hok
    · rename_i body rest' hquoted
      split at hread
      · obtain ⟨rfl, rfl⟩ := Prod.mk.inj hread
        obtain ⟨s', hrest, hless, hshuts⟩ := shuts_of_readQuoted hquote h hquoted
        exact ⟨n + 1, s', hrest, hless.le, hshuts, fun _ _ => rfl⟩
      · obtain ⟨rfl, -⟩ := Prod.mk.inj hread
        cases hok
  · rw [Bool.not_eq_true] at hquote
    obtain ⟨hplain, used, hused, heven, hne⟩ := readToken_even hread hok hquote hparenthesis
    obtain ⟨s', hs, hrest⟩ := h.exists_eq_append heven hused
    have hlength := congrArg List.length hs
    have hpos := List.length_pos_iff.2 hne
    rw [List.length_append, List.length_cons] at hlength
    rw [hs] at h
    exact ⟨n + 1, s', hrest, by omega, h.of_append heven, fun line ts => behind_of_isPlain hplain n ts⟩

/-- What closes parentheses in a text closes them among the tokens of the text, unless they end before. -/
theorem scanTag (h : Closes n s) (tail : Chars) (kind : TagKind) (fuel : Nat) (hfuel : (s ++ tail).length < fuel)
    (nesting : Int) (line : Nat) :
    behind false n (Template.scanTag fuel kind nesting line (s ++ tail)) = none ∨
      ∃ fuel' nesting' line', tail.length < fuel' ∧
        behind false n (Template.scanTag fuel kind nesting line (s ++ tail)) =
          some (Template.scanTag fuel' kind nesting' line' tail) := by
  induction fuel generalizing n s nesting line with
  | zero => exact absurd hfuel (Nat.not_lt_zero _)
  | succ fuel ih =>
    cases n with
    | zero =>
      obtain rfl : s = [] := h
      exact .inr ⟨fuel + 1, nesting, line, hfuel, behind_zero _⟩
    | succ n =>
      -- the blanks in front of a token close nothing, and the parentheses are not closed in front of it
      have hsplit : Closes (n + 1) (s.takeWhile isTagBlank ++ s.dropWhile isTagBlank) := by
        rwa [List.takeWhile_append_dropWhile]
      have hcloses := hsplit.of_append (even_of_isTagBlank fun c hc => List.mem_takeWhile_imp hc)
      cases hdrop : s.dropWhile isTagBlank with
      | nil =>
        rw [hdrop] at hcloses
        cases hcloses
      | cons c r =>
        rw [hdrop] at hcloses
        have hless := (List.dropWhile_sublist isTagBlank (l := s)).length_le
        have hdrop' : (s ++ tail).dropWhile isTagBlank = c :: (r ++ tail) := by
          rw [List.dropWhile_append, hdrop]
          rfl
        rw [List.length_append] at hfuel
        rw [hdrop, List.length_cons] at hless
        rw [Template.scanTag, hdrop']
        cases hread : Template.readToken (c :: (r ++ tail)) with
        | mk t rest =>
          simp only
          split
          · exact .inl rfl
          · rw [hread]
            simp only
            split
            · rename_i hfailure
              cases t with
              | failure => exact .inl rfl
              | _ => cases hfailure
            · rename_i hok
              obtain ⟨m, s', rfl, hshort, hrest, hbehind⟩ := hcloses.readToken hread (Bool.eq_false_iff.2 hok)
              rw [hbehind]
              exact ih hrest (by rw [List.length_append]; omega) _ _

end Closes

/-! ## Calls in output tags -/

theorem scanText_output (fuel line : Nat) (s : Chars) :
    scanText (fuel + 1) false line ('\x7b' :: '\x7b' :: ' ' :: s) =
      ⟨.start .output, line⟩ :: scanTag fuel .output 0 line s := by
  rw [← scanTag_blank]
  rfl

/-- What stands behind a call in parentheses in an output tag that is not escaped. -/
def callEnd : Chars := ")|safe \x7d\x7d".toList

/-- The tokens behind a call: the tag ends if all other brackets are closed, or else it goes on with a brace. -/
theorem scanTag_callEnd (fuel : Nat) (hfuel : callEnd.length < fuel) (nesting : Int) (line : Nat) :
    ∃ rest, scanTag fuel .output nesting line callEnd = ⟨.mark .closeParen, line⟩ :: ⟨.mark .bar, line⟩ ::
        ⟨.name "safe".toList, line⟩ :: rest ∧
      (nesting = 1 ∧ rest = [⟨.stop .output, line⟩] ∨ nesting ≠ 1 ∧ ∃ ts, rest = ⟨.mark .closeBrace, line⟩ :: ts) := by
  have hlength : callEnd.length = 9 := rfl
  obtain ⟨fuel, rfl⟩ : ∃ n, fuel = n + 3 + 1 + 1 + 1 := ⟨fuel - 6, by omega⟩
  have hclose : scanTag (fuel + 3 + 1 + 1 + 1) .output nesting line callEnd = ⟨.mark .closeParen, line⟩ ::
      scanTag (fuel + 3 + 1 + 1) .output (nesting - 1) line "|safe \x7d\x7d".toList :=
    scanTag_mark (fuel + 3 + 1 + 1) nesting rfl rfl (by decide) (by decide)
  have hbar : scanTag (fuel + 3 + 1 + 1) .output (nesting - 1) line "|safe \x7d\x7d".toList = ⟨.mark .bar, line⟩ ::
      scanTag (fuel + 3 + 1) .output (nesting - 1 + 0) line "safe \x7d\x7d".toList :=
    scanTag_mark (fuel + 3 + 1) (nesting - 1) rfl rfl (by decide) (by decide)
  have hname : scanTag (fuel + 3 + 1) .output (nesting - 1) line "safe \x7d\x7d".toList =
      ⟨.name "safe".toList, line⟩ :: scanTag (fuel + 3) .output (nesting - 1) line " \x7d\x7d".toList :=
    scanTag_name (fuel + 3) (nesting - 1) (w := "safe".toList) (d := ' ') (r := "\x7d\x7d".toList) rfl rfl rfl
  rw [Int.add_zero] at hbar
  refine ⟨_, by rw [hclose, hbar, hname], ?_⟩
  by_cases hnesting : nesting - 1 = 0
  · rw [hnesting]
    exact .inl ⟨by omega, rfl⟩
  · have hbrace : scanTag (fuel + 2 + 1) .output (nesting - 1) line "\x7d\x7d".toList =
        ⟨.mark .closeBrace, line⟩ :: scanTag (fuel + 2) .output (nesting - 1 + -1) line "\x7d".toList :=
      scanTag_token (c := '\x7d') (w := []) (fuel + 2) (nesting - 1) rfl (fun h => absurd h hnesting) rfl rfl (by decide)
    exact .inr ⟨by omega, _, (scanTag_blank ..).trans hbrace⟩

theorem withoutLastBreak_output (e : Chars) : withoutLastBreak (Dialect.output e) = Dialect.output e :=
  withoutLastBreak_of_getLast? (Dialect.getLast?_output e)

/-- The tokens of a call in parentheses in an output tag that is not escaped. -/
theorem tokens_call {name : Chars} (hw : name.head?.any Text.isNameStart = true)
    (hchars : name.all Text.isNameChar = true) (args : Chars) :
    ∃ fuel, (args ++ callEnd).length < fuel ∧
      tokens (Dialect.minijinja.rawOutput ('(' :: (name ++ '(' :: args) ++ [')'])) =
        ⟨.start .output, 1⟩ :: ⟨.mark .openParen, 1⟩ :: ⟨.name name, 1⟩ :: ⟨.mark .openParen, 1⟩ ::
          scanTag fuel .output 2 1 (args ++ callEnd) := by
  have hshape : Dialect.minijinja.rawOutput ('(' :: (name ++ '(' :: args) ++ [')']) =
      '\x7b' :: '\x7b' :: ' ' :: '(' :: (name ++ '(' :: (args ++ callEnd)) := by
    show "\x7b\x7b ".toList ++ (('(' :: (name ++ '(' :: args) ++ [')']) ++ '|' :: "safe".toList) ++
      " \x7d\x7d".toList = _
    rw [show callEnd = ')' :: '|' :: ("safe".toList ++ " \x7d\x7d".toList) from rfl]
    simp only [List.append_assoc, List.cons_append, List.nil_append]
    rfl
  have hbreak : withoutLastBreak (Dialect.minijinja.rawOutput ('(' :: (name ++ '(' :: args) ++ [')'])) =
      Dialect.minijinja.rawOutput ('(' :: (name ++ '(' :: args) ++ [')']) := withoutLastBreak_output _
  have hopen (s : Chars) : readToken ('(' :: s) = (.mark .openParen, s) := by cases s <;> rfl
  generalize Dialect.minijinja.rawOutput ('(' :: (name ++ '(' :: args) ++ [')']) = source at hshape hbreak
  refine ⟨2 * (args ++ callEnd).length + 2 * name.length + 8, by omega, ?_⟩
  have hfuel : 2 * source.length + 2 = 2 * (args ++ callEnd).length + 2 * name.length + 8 + 1 + 1 + 1 + 1 := by
    rw [hshape]
    simp only [List.length_cons, List.length_append]
    omega
  rw [tokens, hbreak, hfuel, hshape, scanText_output,
    scanTag_mark _ 0 (hopen _) rfl (by decide) (by decide),
    scanTag_name _ _ hw hchars rfl, scanTag_mark _ _ (hopen _) rfl (by decide) (by decide)]
  rfl

end ViewBridge.Template
