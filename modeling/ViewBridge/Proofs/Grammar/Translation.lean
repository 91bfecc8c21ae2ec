import ViewBridge.Proofs.Grammar.Rules
import ViewBridge.Proofs.Uncovered
/-!
# Well-formed expressions, translated

Behind the rules for members and negation come those for the connectives, which read the blanks around a
symbol or a word as well. No two tokens with blanks stand side by side, so these rules too find what they
look for inside single tokens.

Results:
* `mapUnquoted_eq_substitute`: a rule whose mark stands outside literals only need not know literals.
* `translate_tokens`: a well-formed expression is translated token by token.
-/
namespace ViewBridge.Expression

variable {n : Nat} {x : Char} {rule : Rule}

/-! ## Connectives -/

/-- A spaced symbol does not start in a text without it, unless it goes on behind blanks. -/
theorem substitute_readSpaced_append {cs word u s : Chars} (hu : x ∉ u)
    (hs : ∀ d ∈ u.getLast?, Text.isBlank d = true → ∀ e ∈ s.head?, Text.isBlank e = false ∧ e ≠ x) :
    Text.substitute (readSpaced (x :: cs) word) (u ++ s) = u ++ Text.substitute (readSpaced (x :: cs) word) s := by
  refine Text.substitute_append_of_none fun v hne hv => Option.eq_none_iff_forall_ne_some.2 fun r hr => ?_
  obtain ⟨-, before, behind, hblank, h⟩ := readSpaced_eq_some (show _ = some (r.1, r.2) from hr)
  have hbefore : ∀ c ∈ before, Text.isBlank c = true := fun c hc => hblank c (List.mem_append_left _ hc)
  simp only [List.append_assoc, List.cons_append] at h
  -- the symbol stands behind `v`, so all of `v` is blank
  obtain ⟨w, rfl, hsw⟩ : ∃ w, before = v ++ w ∧ s = w ++ x :: (cs ++ (behind ++ r.2)) := by
    rcases List.append_eq_append_iff.1 h with ⟨w, hw, hsw⟩ | ⟨w, rfl, hw⟩
    · exact ⟨w, hw, hsw⟩
    · cases w with
      | nil => exact ⟨[], by simp, hw.symm⟩
      | cons c w =>
        rw [List.cons_append, List.cons.injEq] at hw
        exact absurd (hv.mem (by simp [hw.1])) hu
  obtain ⟨t, rfl⟩ := hv
  have hlast : v.getLast hne ∈ (t ++ v).getLast? := by
    rw [List.getLast?_append_of_ne_nil _ hne]
    exact List.getLast?_eq_some_getLast hne
  have hhead := hs _ hlast (hbefore _ (List.mem_append_left w (List.getLast_mem hne)))
  cases w with
  | nil => exact (hhead x (by rw [hsw]; rfl)).2 rfl
  | cons e w =>
    have he := (hhead e (by rw [hsw]; rfl)).1
    rw [hbefore e (List.mem_append_right v List.mem_cons_self)] at he
    cases he

/-- The character that the symbol of a connective is made of. -/
def Connective.mark : Connective → Char
  | .and => '&'
  | .or => '|'

theorem readSpaced_symbol (k : Connective) (before behind : Blanks) {s : Chars}
    (hs : ∀ c ∈ s.head?, Text.isBlank c = false) :
    readSpaced k.symbol k.text (before.1 ++ k.symbol ++ behind.1 ++ s) = some (k.text, s) := by
  have hmark : Text.isBlank k.mark = false := by cases k <;> decide
  have hsymbol : k.symbol = [k.mark, k.mark] := by cases k <;> rfl
  have hbefore : (before.1 ++ k.symbol ++ behind.1 ++ s).dropWhile Text.isBlank = k.symbol ++ (behind.1 ++ s) := by
    rw [hsymbol, List.append_assoc, List.append_assoc, List.cons_append, Text.dropWhile_append_cons hmark,
      Text.dropWhile_eq_nil before.2, List.nil_append]
  have hbehind : (behind.1 ++ s).dropWhile Text.isBlank = s := by
    cases s with
    | nil => rw [List.append_nil, Text.dropWhile_eq_nil behind.2]
    | cons c s => rw [Text.dropWhile_append_cons (hs c rfl), Text.dropWhile_eq_nil behind.2, List.nil_append]
  rw [readSpaced, hbefore, Text.after?_append, Option.map_some, hbehind]

theorem substitute_readSpaced_text (k : Connective) {ts : List Token} (hts : Ordered ts) (hn : k.turn = n + 1) :
    Text.substitute (readSpaced k.symbol k.text) (text n ts) = text (n + 1) ts := by
  have hmark : Text.isNameChar k.mark = false ∧ Text.isBlank k.mark = false := by cases k <;> decide
  have hsymbol : k.symbol = [k.mark, k.mark] := by cases k <;> rfl
  refine substitute_text (fun t ts h => ?_) hts
  have hother (ht : t.turn ≠ n + 1 ∧ k.mark ∉ t.marks) :
      Text.substitute (readSpaced k.symbol k.text) (t.written n ++ text n ts) =
        t.written (n + 1) ++ Text.substitute (readSpaced k.symbol k.text) (text n ts) := by
    rw [Token.written_succ ht.1, hsymbol]
    refine substitute_readSpaced_append (Token.not_mem_written hmark ht.2 n) fun d hd hblank e he => ?_
    obtain ⟨hnot, hand, hor⟩ := head_text_of_not_ends h (Token.ends_of_last_blank hd hblank) e he
    exact ⟨hnot, by cases k <;> assumption⟩
  cases t with
  | symbol k' before behind =>
    by_cases hk : k' = k
    · subst hk
      have hwritten := Token.written_of_turn (t := .symbol k' before behind) hn
      rw [hwritten.1, hwritten.2]
      have hblank : ∀ c ∈ (text n ts).head?, Text.isBlank c = false :=
        fun c hc => (head_text_of_not_ends h rfl c hc).1
      refine Text.substitute_of_some (readSpaced_symbol k' before behind hblank) ?_
      simp only [List.length_append, hsymbol, Token.source, List.length_cons]
      omega
    · refine hother ⟨fun hturn => hk ?_, ?_⟩
      · rw [← hn] at hturn
        cases k <;> cases k' <;> first | rfl | cases hturn
      · cases k <;> cases k' <;> first | exact absurd rfl hk | simp [Token.marks, Connective.mark]
  | operator op => exact hother ⟨by simp [Token.turn], op.not_mem_text (by cases k <;> decide)⟩
  | word _ _ =>
    refine hother ⟨fun hturn => ?_, by simp [Token.marks]⟩
    rw [← hn] at hturn
    cases k <;> cases hturn
  | _ =>
    refine hother ⟨fun hturn => ?_, by cases k <;> simp [Token.marks, Connective.mark]⟩
    rw [← hn] at hturn
    cases k <;> cases hturn

/-! ## Words -/

theorem readWord_of_spelling {word w : Chars} (hw : Text.asciiLower w = word) (s : Chars) :
    readWord word (' ' :: w ++ ' ' :: s) = some (' ' :: word ++ [' '], s) := by
  have hlength : word.length = w.length := by rw [← hw, Text.asciiLower, List.length_map]
  have hcaseless : caseless? word (w ++ ' ' :: s) = some (' ' :: s) := by
    rw [caseless?_eq, hlength, List.take_left, if_pos hw, List.drop_left]
  have hafter : Text.after? [' '] (' ' :: (w ++ ' ' :: s)) = some (w ++ ' ' :: s) := rfl
  have hspace : Text.after? [' '] (' ' :: s) = some s := rfl
  rw [readWord, List.cons_append, hafter, Option.bind_some, hcaseless, Option.bind_some, hspace]
  rfl

theorem readLogicWord_of_spelling (k : Connective) {w : Chars} (hw : Text.asciiLower w = k.word) (s : Chars) :
    readLogicWord (' ' :: w ++ ' ' :: s) = some (k.text, s) := by
  have hread := readWord_of_spelling hw s
  rw [readLogicWord_eq]
  cases k with
  | and => rw [show "and".toList = Connective.word .and from rfl, hread]; rfl
  | or =>
    -- the other word differs from this one at its first letter
    have hnone : readWord "and".toList (' ' :: w ++ ' ' :: s) = none := by
      refine Option.eq_none_iff_forall_ne_some.2 fun r hr => ?_
      obtain ⟨-, used, hused, h⟩ := readWord_eq_some (show _ = some (r.1, r.2) from hr)
      obtain ⟨c, w, rfl, hc⟩ : ∃ c u, w = c :: u ∧ c.toLower = 'o' := by
        cases w with
        | nil => cases hw
        | cons c w => exact ⟨c, w, rfl, (List.cons.inj hw).1⟩
      obtain ⟨d, used, rfl, hd⟩ : ∃ d u, used = d :: u ∧ d.toLower = 'a' := by
        cases used with
        | nil => cases hused
        | cons d used => exact ⟨d, used, rfl, (List.cons.inj hused).1⟩
      simp only [List.cons_append, List.cons.injEq] at h
      rw [h.2.1, hd] at hc
      cases hc
    rw [hnone, Option.none_or]
    exact hread

theorem readLogicWord_eq_some {s out rest : Chars} (h : readLogicWord s = some (out, rest)) :
    ∃ k : Connective, out = k.text ∧ ∃ used, Text.asciiLower used = k.word ∧ s = ' ' :: (used ++ ' ' :: rest) := by
  rw [readLogicWord_eq, Option.or_eq_some_iff] at h
  rcases h with h | ⟨-, h⟩
  · exact ⟨.and, readWord_eq_some h⟩
  · exact ⟨.or, readWord_eq_some h⟩

theorem marked_readLogicWord : Marked ' ' readLogicWord := by
  intro s r h
  obtain ⟨k, -, used, -, rfl⟩ := readLogicWord_eq_some (show _ = some (r.1, r.2) from h)
  rfl

/-- A logical word does not start in a text without letters, unless it goes on behind it. -/
theorem substitute_readLogicWord_append {u s : Chars} (hu : ∀ c ∈ u, Text.isNameStart c = false)
    (hs : ∀ {k : Connective} {used rest}, Text.asciiLower used = k.word → s ≠ used ++ ' ' :: rest) :
    Text.substitute readLogicWord (u ++ s) = u ++ Text.substitute readLogicWord s := by
  refine Text.substitute_append_of_none fun v hne hv => Option.eq_none_iff_forall_ne_some.2 fun r hr => ?_
  obtain ⟨k, -, used, hused, h⟩ := readLogicWord_eq_some (show _ = some (r.1, r.2) from hr)
  obtain _ | ⟨c, _ | ⟨d, v⟩⟩ := v
  · exact hne rfl
  · exact hs hused (List.cons.inj h).2
  · cases used with
    | nil => cases k <;> cases hused
    | cons e used =>
      simp only [List.cons_append, List.cons.injEq] at h
      have he := isNameStart_of_mem_spelling hused (c := e) List.mem_cons_self
      rw [← h.2.1, hu d (hv.mem (by simp))] at he
      cases he

theorem substitute_readLogicWord_text {ts : List Token} (hts : Ordered ts) :
    Text.substitute readLogicWord (text 7 ts) = text 8 ts := by
  refine substitute_text (fun t ts h => ?_) hts
  have hconnective {k : Connective} {w : Chars} (hw : Text.asciiLower w = k.word) :
      Text.substitute readLogicWord (' ' :: w ++ [' '] ++ text 7 ts) =
        k.text ++ Text.substitute readLogicWord (text 7 ts) := by
    rw [List.append_assoc]
    refine Text.substitute_of_some (readLogicWord_of_spelling k hw (text 7 ts)) ?_
    simp only [List.length_append, List.length_cons]
    omega
  have hplain (ht : t.turn ≠ 8 ∧ t.isSpaced = false) :
      Text.substitute readLogicWord (t.written 7 ++ text 7 ts) =
        t.written 8 ++ Text.substitute readLogicWord (text 7 ts) := by
    rw [Token.written_succ ht.1]
    exact marked_readLogicWord.substitute_append
      (fun hmem => absurd (Token.isBlank_of_mem_written ht.2 hmem) (by decide)) (text 7 ts)
  have hrest {u : Chars} (hu : ∀ c ∈ u, Text.isNameStart c = false) :
      Text.substitute readLogicWord (u ++ text 7 ts) = u ++ Text.substitute readLogicWord (text 7 ts) :=
    substitute_readLogicWord_append hu fun hused => not_logicWord_text h.tail hused _
  cases t with
  | symbol k _ _ =>
    have hk : Text.asciiLower k.word = k.word := by cases k <;> rfl
    cases k <;> exact hconnective hk
  | word k w => exact hconnective w.2
  | comma gap =>
    refine hrest (u := ',' :: gap.1) fun c hc => ?_
    rcases List.mem_cons.1 hc with rfl | hc
    · rfl
    · cases hstart : Text.isNameStart c with
      | false => rfl
      | true =>
        have hname := isNameChar_of_isBlank (gap.2 c hc)
        rw [Text.isNameChar_of_isNameStart hstart] at hname
        cases hname
  | negation =>
    have hspace := hrest (u := [' ']) (forall_mem_of_all (by decide))
    have hnot := marked_readLogicWord.substitute_append (u := "not".toList) (by decide) (' ' :: text 7 ts)
    rw [← List.singleton_append, hspace] at hnot
    exact hnot
  | join => exact hrest (u := " ~ ".toList) (forall_mem_of_all (by decide))
  | operator op => exact hrest (u := op.text) (forall_mem_of_all (by cases op <;> decide))
  | _ => exact hplain (by simp [Token.turn, Token.isSpaced])

theorem spellLogic_text {ts : List Token} (hts : Ordered ts) : spellLogic (text 5 ts) = text 8 ts := by
  have hand := substitute_readSpaced_text .and hts (n := 5) rfl
  have hor := substitute_readSpaced_text .or hts (n := 6) rfl
  rw [← substitute_readLogicWord_text hts, ← hor, ← hand]
  rfl

/-! ## Rules for text outside literals -/

/-- A rule whose mark stands outside literals only need not know literals. -/
theorem mapUnquoted_eq_substitute (hmark : Marked x rule)
    (hcut : ∀ {q}, isQuote q = true → ∀ a b,
      Text.substitute rule (a ++ q :: b) = Text.substitute rule a ++ q :: Text.substitute rule b)
    {s : Chars} (hs : Uncovered x .outside s) : mapUnquoted (Text.substitute rule) s = Text.substitute rule s := by
  induction hn : s.length using Nat.strongRecOn generalizing s with
  | ind n ih =>
    rcases unquoted_or_cut s with hplain | ⟨plain, q, rest, rfl, hq, hplain⟩
    · exact mapUnquoted_eq_self hplain
    · have hopen : Mode.step true .outside q = .inside q := by rw [Mode.step, hq]; rfl
      rw [uncovered_append, (complete_of_unquoted (x := x) hplain).2] at hs
      have hliteral := Uncovered.readLiteral hq (s := rest) (hopen ▸ hs.2.2)
      have hlength := readLiteral_length q rest
      simp only [List.length_append, List.length_cons] at hn
      have hbehind : Text.substitute rule rest =
          (readLiteral q rest).1 ++ Text.substitute rule (readLiteral q rest).2 := by
        rw [← hmark.substitute_append hliteral.1, readLiteral_append]
      rw [mapUnquoted_of_plain hplain hq, hcut hq, hbehind, ih _ (by omega) hliteral.2 rfl]
      simp

theorem barred_readNot : Barred readNot where
  finds {s out rest} h := by
    obtain ⟨rfl, rfl⟩ := readNot_eq_some h
    exact ⟨['!'], rfl, by simp, by simp, bare_of_all (by decide), bare_of_all (by decide)⟩
  seam {q} hq s t := by
    have hmark : q ≠ '!' := ne_of_isQuote hq rfl
    have hequal : q ≠ '=' := ne_of_isQuote hq rfl
    obtain _ | ⟨c, _ | ⟨d, s⟩⟩ := s
    · simp [readNot, hmark]
    · by_cases hc : c = '!' <;> simp [readNot, hc, hequal]
    · by_cases hc : c = '!' <;> by_cases hd : d = '=' <;> simp [readNot, hc, hd]

theorem substitute_readBareKey_cut {q : Char} (hq : isQuote q = true) (a b : Chars) :
    Text.substitute readBareKey (a ++ q :: b) =
      Text.substitute readBareKey a ++ q :: Text.substitute readBareKey b := by
  have hbracket : q ≠ '[' := ne_of_isQuote hq rfl
  have hnone : readBareKey (q :: b) = none := by simp [readBareKey, hbracket]
  rw [Text.substitute_append, Text.substitute_cons_of_none hnone]
  · intro v out rest hf
    obtain ⟨name, -, rfl, -⟩ := readBareKey_eq_some hf
    exact ⟨'[' :: (name ++ [']']), by simp⟩
  · rintro v hne -
    obtain _ | ⟨c, _ | ⟨d, v⟩⟩ := v
    · exact absurd rfl hne
    · by_cases hc : c = '[' <;> simp [readBareKey, hc, isNameStart_of_isQuote hq]
    · by_cases hc : c = '['
      · subst hc
        have hname : Text.isNameChar q = false := isNameChar_of_isQuote hq
        simp only [List.cons_append, readBareKey, Text.dropWhile_append_cons hname,
          Text.takeWhile_append_cons hname]
        split
        · cases hd : v.dropWhile Text.isNameChar with
          | nil => simp [ne_of_isQuote hq (c := ']') rfl]
          | cons e w => by_cases he : e = ']' <;> simp [he]
        · rfl
      · simp [readBareKey, hc]

/-! ## All rules -/

namespace Token

/-- A token is complete, and its literal has nothing but a name in it. -/
theorem complete_written (hx : Text.isNameChar x = false ∧ isQuote x = false) (n : Nat) (t : Token) :
    Complete x (t.written n) := by
  have hliteral (q : Quote) (body : Word) : Complete x (q.1 :: body.1 ++ [q.1]) := by
    have hq : x ≠ q.1 := (ne_of_isQuote q.2 hx.2).symm
    have hbody : x ∉ body.1 := fun h => by
      rw [body.2 x h] at hx
      cases hx.1
    have hopen : Mode.step true .outside q.1 = .inside q.1 := by rw [Mode.step, q.2]; rfl
    have hrun : Mode.run true (.inside q.1) body.1 = .inside q.1 := by
      by_cases hnil : body.1 = []
      · rw [hnil]; rfl
      · exact Mode.run_bare _ _ (fun c hc => isQuote_of_nameChar (body.2 c hc)) hnil
    have hslash : q.1 ≠ '\\' := ne_of_isQuote q.2 rfl
    have hclose : Mode.step true (.inside q.1) q.1 = .outside := by
      rw [Mode.step, if_neg hslash, if_pos (by simp [q.2])]
    refine ⟨uncovered_of_not_mem (by simp [hq, hbody]), ?_⟩
    rw [List.cons_append, Mode.run_cons, hopen, Mode.run_append, hrun, Mode.run_cons, hclose]
    rfl
  have hother (ht : ∀ c ∈ t.marks, isQuote c = false) : Complete x (t.written n) :=
    complete_of_unquoted fun c => isQuote_of_mem_written ht
  cases t with
  | literal q body => exact hliteral q body
  | key name =>
    rw [written]
    split
    · -- the key is a literal between brackets
      have hkey := hliteral ⟨'\x27', rfl⟩ ⟨name.1, name.2.1.2⟩
      have htarget : (key name).target = ['['] ++ ('\x27' :: name.1 ++ ['\x27']) ++ [']'] := by simp [target]
      rw [htarget]
      exact ((complete_of_unquoted (forall_mem_of_all (by decide))).append hkey).append
        (complete_of_unquoted (forall_mem_of_all (by decide)))
    · refine complete_of_unquoted fun c hc => ?_
      simp only [source, List.mem_append, List.mem_cons, List.not_mem_nil, or_false] at hc
      rcases hc with (rfl | hc) | rfl
      · rfl
      · exact (isQuote_of_nameChar (name.2.1.2 c hc)).1
      · rfl
  | operator op => exact hother (forall_mem_of_all (by cases op <;> decide))
  | symbol k _ _ => exact hother (by cases k <;> simp [marks, isQuote])
  | _ => exact hother (by simp [marks, isQuote])

end Token

theorem complete_text (hx : Text.isNameChar x = false ∧ isQuote x = false) (n : Nat) (ts : List Token) :
    Complete x (text n ts) := by
  induction ts with
  | nil => exact ⟨trivial, rfl⟩
  | cons t ts ih => exact (t.complete_written hx n).append ih

theorem trimWhile_eq_self_of_ends {p : Char → Bool} {s : Chars} (hhead : ∀ c ∈ s.head?, p c = false)
    (hlast : ∀ c ∈ s.getLast?, p c = false) : Text.trimWhile p s = s := by
  have hdrop {s : Chars} (h : ∀ c ∈ s.head?, p c = false) : s.dropWhile p = s := by
    cases s with
    | nil => rfl
    | cons c s => simp [h c rfl]
  rw [Text.trimWhile, hdrop hhead, Text.dropEndWhile, hdrop (by simpa using hlast), List.reverse_reverse]

/-- Operands neither start nor end with a blank. -/
theorem trimWhile_text {ts : List Token} (h : Phrase ts) (n : Nat) :
    Text.trimWhile Text.isBlank (text n ts) = text n ts := by
  refine trimWhile_eq_self_of_ends ?_ ?_
  · obtain ⟨t, ht, hstarts⟩ := h.starts
    obtain ⟨us, rfl⟩ := List.head?_eq_some_iff.1 ht
    obtain ⟨c, rest, hc, hlead, -⟩ := t.leads_written n
    rw [text_cons, hc]
    rintro _ ⟨⟩
    exact (hlead.of_operand (.inl hstarts)).1
  · obtain ⟨t, ht, hends⟩ := h.ends
    obtain ⟨us, rfl⟩ := List.getLast?_eq_some_iff.1 ht
    obtain ⟨c, rest, hc, -⟩ := t.leads_written n
    have hne : t.written n ≠ [] := by rw [hc]; exact List.cons_ne_nil c rest
    intro d hd
    rw [text, List.flatMap_append, List.flatMap_singleton, List.getLast?_append_of_ne_nil _ hne] at hd
    cases hblank : Text.isBlank d with
    | false => rfl
    | true =>
      rw [Token.ends_of_last_blank hd hblank] at hends
      cases hends

/-- A well-formed expression is translated token by token. -/
theorem translate_tokens (e : Tree) :
    translate (e.tokens.flatMap Token.source) = e.tokens.flatMap Token.target := by
  have hphrase := e.phrase_tokens
  have hts := hphrase.ordered
  generalize e.tokens = ts at hphrase hts
  have hsource : ts.flatMap Token.source = text 0 ts := by
    rw [text, funext Token.written_zero]
  have htarget : ts.flatMap Token.target = text 8 ts := by
    rw [text, funext Token.written_eight]
  have hkeys : quoteKeys (text 0 ts) = text 1 ts := by
    rw [quoteKeys, mapUnquoted_eq_substitute marked_readBareKey substitute_readBareKey_cut
      (complete_text (by decide) 0 ts).1, substitute_readBareKey_text hts]
  have hnegations : negations (text 4 ts) = text 5 ts := by
    rw [negations, funext spellNot_eq, mapUnquoted_eq_substitute marked_readNot
      (fun hq a b => barred_readNot.substitute_cut hq a b) (complete_text (by decide) 4 ts).1,
      substitute_readNot_text hts]
  rw [hsource, htarget, translate, hkeys, dropSigils_eq, substitute_readSigil_text hts, dotArrows_text hts,
    tildeJoins_text hts, hnegations, spellLogic_text hts, trimWhile_text hphrase]

end ViewBridge.Expression
