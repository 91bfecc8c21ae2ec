import ViewBridge.Proofs.Call.Detection
import ViewBridge.Proofs.Grammar.Translation
/-!
# How many arguments a call has

A call with one argument may be written as a filter. Whether there are several is decided on the translated
arguments, by a reader that knows no escapes. The rules of expressions move no quote, bracket or comma, so
where no literal has a backslash in it the answer is right for the arguments as they were.

Results:
* `hasTopComma_translate`: the translation of arguments has as many arguments as they have.
* `emitFunction_callee`: what becomes of a body with a callee.
-/
namespace ViewBridge.Directive

open Expression (isQuote Mode Uncovered Complete shuts translate)

/-! ## A reader that knows escapes -/

def isOpening (c : Char) : Bool := c == '(' || c == '[' || c == '\x7b'

def isClosing (c : Char) : Bool := c == ')' || c == ']' || c == '\x7d'

/-- Whether a comma stands outside literals and brackets, for a reader that knows escapes and stands inside of
so many brackets. -/
def topComma : Mode → Nat → Chars → Bool
  | _, _, [] => false
  | m, depth, c :: s =>
    if m = .outside ∧ isOpening c = true then topComma m (depth + 1) s
    else if m = .outside ∧ isClosing c = true then topComma m (depth - 1) s
    else if m = .outside ∧ c = ',' ∧ depth = 0 then true
    else topComma (m.step true c) depth s

/-- The characters that the readers of arguments look at. -/
def counts (c : Char) : Bool := isQuote c || isOpening c || isClosing c || c == ','

section
variable {st : ArgumentState} {c : Char} {s t : Chars}

/-- One character on, outside of literals. -/
theorem hasTopComma_cons (depth : Nat) (hc : isQuote c = false) :
    hasTopComma ⟨none, depth⟩ (c :: s) =
      if isOpening c = true then hasTopComma ⟨none, depth + 1⟩ s
      else if isClosing c = true then hasTopComma ⟨none, depth - 1⟩ s
      else if c = ',' ∧ depth = 0 then true
      else hasTopComma ⟨none, depth⟩ s := by
  simp only [hasTopComma, hc, Bool.false_eq_true, if_false, isOpening, isClosing, Bool.or_eq_true, beq_iff_eq, or_assoc]

/-- Without backslashes in literals both readers find the same. -/
theorem hasTopComma_eq_topComma (s : Chars) (depth : Nat) :
    (Uncovered '\\' .outside s → hasTopComma ⟨none, depth⟩ s = topComma .outside depth s) ∧
    ∀ q, isQuote q = true → Uncovered '\\' (.inside q) s →
      hasTopComma ⟨some q, depth⟩ s = topComma (.inside q) depth s := by
  induction s generalizing depth with
  | nil => exact ⟨fun _ => rfl, fun _ _ _ => rfl⟩
  | cons c s ih =>
    refine ⟨fun h => ?_, fun q hq h => ?_⟩
    · have htail := h.2
      cases hc : isQuote c with
      | true =>
        have hstep : Mode.step true .outside c = .inside c := by rw [Mode.step, hc]; rfl
        rw [hstep] at htail
        have hrest := (ih depth).2 c hc htail
        simp only [isQuote, Bool.or_eq_true, beq_iff_eq] at hc
        rcases hc with rfl | rfl <;> exact hrest
      | false =>
        have hstep : Mode.step true .outside c = .outside := by rw [Mode.step, hc]; rfl
        rw [hstep] at htail
        have hrest (depth : Nat) := (ih depth).1 htail
        simp only [hasTopComma_cons depth hc, topComma, hstep, hrest, true_and]
    · have hslash : c ≠ '\\' := fun hc => absurd (h.1 hc) Mode.noConfusion
      have htail := h.2
      have hstep := step_inside hq hslash
      rw [hstep] at htail
      simp only [hasTopComma, topComma, reduceCtorEq, false_and, if_false, hstep]
      by_cases hc : c = q
      · rw [if_pos hc] at htail ⊢
        simp only [hc, if_true]
        exact (ih depth).1 htail
      · rw [if_neg hc] at htail ⊢
        simp only [hc, if_false]
        exact (ih depth).2 q hq htail

/-- The reader of arguments sees nothing else. -/
theorem hasTopComma_filter (hst : ∀ q, st.quote = some q → isQuote q = true) (s : Chars) :
    hasTopComma st (s.filter counts) = hasTopComma st s := by
  induction s generalizing st with
  | nil => rfl
  | cons c s ih =>
    obtain ⟨_ | q, depth⟩ := st
    · have hrest (depth : Nat) := @ih ⟨none, depth⟩ (fun q hq => absurd hq (Option.some_ne_none q).symm)
      cases hc : counts c with
      | false =>
        simp only [counts, Bool.or_eq_false_iff, beq_eq_false_iff_ne] at hc
        rw [List.filter_cons_of_neg (by simp [counts, hc]), hasTopComma_cons depth hc.1.1.1, hrest]
        simp [hc]
      | true =>
        rw [List.filter_cons_of_pos hc]
        cases hquote : isQuote c with
        | true =>
          have hopen := @ih ⟨some c, depth⟩ (fun q hq => Option.some.inj hq ▸ hquote)
          simp only [hasTopComma, hquote, if_true, hopen]
        | false => simp only [hasTopComma_cons depth hquote, hrest]
    · have hq := hst q rfl
      have hclosed := @ih ⟨none, depth⟩ (fun q hq => absurd hq (Option.some_ne_none q).symm)
      have hopen := @ih ⟨some q, depth⟩ hst
      cases hc : counts c with
      | false =>
        have hne : c ≠ q := by
          rintro rfl
          simp [counts, hq] at hc
        rw [List.filter_cons_of_neg (by simp [hc]), hopen, hasTopComma]
        simp only [if_neg hne]
      | true =>
        rw [List.filter_cons_of_pos hc, hasTopComma, hasTopComma]
        simp only
        split
        · exact hclosed
        · exact hopen

end

/-! ## What the rules move -/

section
variable {rule : Chars → Option (Chars × Chars)} {p : Char → Bool}

/-- A rule that writes the characters of a kind that it reads, in their order. -/
def Retains (p : Char → Bool) (rule : Chars → Option (Chars × Chars)) : Prop :=
  ∀ ⦃s out rest⦄, rule s = some (out, rest) → ∃ used, s = used ++ rest ∧ out.filter p = used.filter p

theorem Retains.filter_substitute (h : Retains p rule) (s : Chars) :
    (Text.substitute rule s).filter p = s.filter p := by
  induction hn : s.length using Nat.strongRecOn generalizing s with
  | ind n ih =>
    cases s with
    | nil => rw [Text.substitute_nil]
    | cons c s =>
      rw [List.length_cons] at hn
      have hcopy : (c :: Text.substitute rule s).filter p = (c :: s).filter p := by
        rw [List.filter_cons, List.filter_cons, ih s.length (by omega) s rfl]
      rw [Text.substitute]
      cases hf : rule (c :: s) with
      | none => exact hcopy
      | some r =>
        obtain ⟨out, rest⟩ := r
        simp only
        split
        · rename_i hlen
          obtain ⟨used, hused, hout⟩ := h hf
          rw [List.filter_append, ih rest.length (by omega) rest rfl, hused, List.filter_append, hout]
        · exact hcopy

theorem filter_mapUnquoted {f : Chars → Chars} (h : ∀ s, (f s).filter p = s.filter p) (s : Chars) :
    (Expression.mapUnquoted f s).filter p = s.filter p := by
  induction hn : s.length using Nat.strongRecOn generalizing s with
  | ind n ih =>
    rcases Expression.unquoted_or_cut s with hplain | ⟨plain, q, rest, rfl, hq, hplain⟩
    · rw [Expression.mapUnquoted_eq_self hplain, h]
    · have hlength := Expression.readLiteral_length q rest
      simp only [List.length_append, List.length_cons] at hn
      have hrest := ih (Expression.readLiteral q rest).2.length (by omega) _ rfl
      rw [Expression.mapUnquoted_of_plain hplain hq, List.append_assoc, List.cons_append, List.filter_append, h,
        List.filter_append, List.filter_cons, List.filter_append, hrest, ← List.filter_append,
        Expression.readLiteral_append, ← List.filter_cons]

theorem retains_exchange {old new : Chars} (h : new.filter p = old.filter p) : Retains p (Text.exchange old new) := by
  intro s out rest hf
  obtain ⟨rfl, hs⟩ := Text.exchange_eq_some hf
  exact ⟨old, hs, h⟩

theorem filter_trim (h : ∀ c, Text.isBlank c = true → p c = false) (s : Chars) :
    (Text.trimWhile Text.isBlank s).filter p = s.filter p := by
  have hdrop (s : Chars) : (s.dropWhile Text.isBlank).filter p = s.filter p := by
    have hnil : (s.takeWhile Text.isBlank).filter p = [] :=
      List.filter_eq_nil_iff.2 fun c hc => by simp [h c (List.mem_takeWhile_imp hc)]
    conv_rhs => rw [← List.takeWhile_append_dropWhile (p := Text.isBlank) (l := s), List.filter_append, hnil]
    rfl
  rw [Text.trimWhile, Text.dropEndWhile, List.filter_reverse, hdrop, List.filter_reverse, List.reverse_reverse, hdrop]

/-- A character that counts is one of a few. -/
theorem counts_eq_false {c : Char} {q : Char → Bool} (hq : ("\x27\x22([\x7b)]\x7d,".toList.all fun d => !q d) = true)
    (hc : q c = true) : counts c = false := by
  cases hcounts : counts c with
  | false => rfl
  | true =>
    have hmem : c ∈ "\x27\x22([\x7b)]\x7d,".toList := by
      simpa [counts, isQuote, isOpening, isClosing, or_assoc] using hcounts
    have hnot := List.all_eq_true.1 hq c hmem
    rw [hc] at hnot
    cases hnot

end

/-! ## What counts -/

theorem filter_counts_of_isNameChar {s : Chars} (h : ∀ c ∈ s, Text.isNameChar c = true) : s.filter counts = [] :=
  List.filter_eq_nil_iff.2 fun c hc => by simp [counts_eq_false (q := Text.isNameChar) (by decide) (h c hc)]

theorem counts_of_isBlank {c : Char} (h : Text.isBlank c = true) : counts c = false :=
  counts_eq_false (q := Text.isBlank) (by decide) h

theorem filter_counts_of_isBlank {s : Chars} (h : ∀ c ∈ s, Text.isBlank c = true) : s.filter counts = [] :=
  List.filter_eq_nil_iff.2 fun c hc => by simp [counts_of_isBlank (h c hc)]

theorem retains_readSigil : Retains counts Expression.readSigil := by
  intro s out rest hf
  obtain ⟨c, -, rfl, rfl⟩ := Expression.readSigil_eq_some hf
  exact ⟨['$', c], rfl, rfl⟩

theorem retains_readNot : Retains counts Expression.readNot := by
  intro s out rest hf
  obtain ⟨rfl, rfl⟩ := Expression.readNot_eq_some hf
  exact ⟨['!'], rfl, rfl⟩

/-- A dot between two characters that becomes a tilde. -/
theorem filter_counts_join (c d : Char) : (c :: " ~ ".toList ++ [d]).filter counts = [c, '.', d].filter counts := by
  rw [List.cons_append, List.filter_cons, List.filter_cons]
  rfl

theorem retains_readQuoteDot : Retains counts Expression.readQuoteDot := by
  intro s out rest hf
  obtain ⟨q, c, -, -, rfl, rfl⟩ := Expression.readQuoteDot_eq_some hf
  exact ⟨[q, '.', c], rfl, filter_counts_join q c⟩

theorem retains_readDotQuote : Retains counts Expression.readDotQuote := by
  intro s out rest hf
  obtain ⟨c, q, -, -, rfl, rfl⟩ := Expression.readDotQuote_eq_some hf
  exact ⟨[c, '.', q], rfl, filter_counts_join c q⟩

theorem retains_readSpaced {operator word : Chars} (h : word.filter counts = operator.filter counts) :
    Retains counts (Expression.readSpaced operator word) := by
  intro s out rest hf
  obtain ⟨rfl, before, behind, hblank, rfl⟩ := Expression.readSpaced_eq_some hf
  rw [List.forall_mem_append] at hblank
  refine ⟨before ++ operator ++ behind, rfl, ?_⟩
  rw [List.filter_append, List.filter_append, filter_counts_of_isBlank hblank.1, filter_counts_of_isBlank hblank.2,
    List.nil_append, List.append_nil, h]

theorem retains_readLogicWord : Retains counts Expression.readLogicWord := by
  intro s out rest hf
  obtain ⟨k, rfl, used, hused, rfl⟩ := Expression.readLogicWord_eq_some hf
  have hletters : ∀ c ∈ used, Text.isNameChar c = true :=
    fun c hc => Text.isNameChar_of_isNameStart (Expression.isNameStart_of_mem_spelling hused hc)
  refine ⟨' ' :: used ++ [' '], by simp, ?_⟩
  rw [List.cons_append, List.filter_cons, List.filter_append, filter_counts_of_isNameChar hletters]
  cases k <;> rfl

/-- All rules but the one for keys leave the characters that count as they are. -/
theorem filter_counts_translate (e : Chars) :
    (translate e).filter counts = (Expression.quoteKeys e).filter counts := by
  have hreplace {old new : Chars} (hne : old ≠ []) (h : new.filter counts = old.filter counts) (s : Chars) :
      (Text.replace old new s).filter counts = s.filter counts := by
    rw [Text.replace_eq_substitute _ hne, (retains_exchange h).filter_substitute]
  have hspaced {operator word : Chars} (h : word.filter counts = operator.filter counts) (s : Chars) :=
    (retains_readSpaced h).filter_substitute s
  have hlogic (s : Chars) : (Expression.spellLogic s).filter counts = s.filter counts := by
    rw [Expression.spellLogic, retains_readLogicWord.filter_substitute, hspaced (by decide), hspaced (by decide)]
  have hnegations (s : Chars) : (Expression.negations s).filter counts = s.filter counts := by
    rw [Expression.negations, funext Expression.spellNot_eq]
    exact filter_mapUnquoted retains_readNot.filter_substitute s
  have hjoins (s : Chars) : (Expression.tildeJoins s).filter counts = s.filter counts := by
    rw [Expression.tildeJoins, retains_readDotQuote.filter_substitute, retains_readQuoteDot.filter_substitute,
      hreplace (by decide) (by decide)]
  rw [Expression.translate, filter_trim (fun c => counts_of_isBlank), hlogic, hnegations, hjoins, Expression.dotArrows,
    hreplace (by decide) (by decide), Expression.dropSigils_eq, retains_readSigil.filter_substitute]

/-! ## Keys -/

section
variable {s t : Chars}

/-- Texts with the same commas outside of literals have the same ones behind the same character. -/
theorem hasTopComma_cons_congr {c : Char} (hc : isQuote c = false)
    (h : ∀ depth, hasTopComma ⟨none, depth⟩ s = hasTopComma ⟨none, depth⟩ t) (depth : Nat) :
    hasTopComma ⟨none, depth⟩ (c :: s) = hasTopComma ⟨none, depth⟩ (c :: t) := by
  simp only [hasTopComma_cons depth hc, h]

/-- A key has no comma of its own, quoted or not. -/
theorem hasTopComma_key {name : Chars} (hname : ∀ c ∈ name, Text.isNameChar c = true) (depth : Nat) (s : Chars) :
    hasTopComma ⟨none, depth⟩ ("['".toList ++ name ++ "']".toList ++ s) = hasTopComma ⟨none, depth⟩ s ∧
      hasTopComma ⟨none, depth⟩ ('[' :: (name ++ ']' :: s)) = hasTopComma ⟨none, depth⟩ s := by
  have hfilter (s : Chars) := @hasTopComma_filter ⟨none, depth⟩ (fun q hq => absurd hq (Option.some_ne_none q).symm) s
  constructor
  · rw [← hfilter, ← hfilter s]
    simp only [List.filter_append, filter_counts_of_isNameChar hname]
    rfl
  · rw [← hfilter, ← hfilter s, List.filter_cons_of_pos (by decide), List.filter_append,
      filter_counts_of_isNameChar hname, List.filter_cons_of_pos (by decide)]
    rfl

/-- Bare keys outside of literals are quoted without harm. -/
theorem hasTopComma_substitute_readBareKey {u : Chars} (hu : ∀ c ∈ u, isQuote c = false)
    (h : ∀ depth, hasTopComma ⟨none, depth⟩ s = hasTopComma ⟨none, depth⟩ t) (depth : Nat) :
    hasTopComma ⟨none, depth⟩ (Text.substitute Expression.readBareKey u ++ s) =
      hasTopComma ⟨none, depth⟩ (u ++ t) := by
  induction hn : u.length using Nat.strongRecOn generalizing u depth with
  | ind n ih =>
    cases u with
    | nil => rw [Text.substitute_nil]; exact h depth
    | cons c u =>
      simp only [List.length_cons] at hn
      rw [List.forall_mem_cons] at hu
      have hcopy := hasTopComma_cons_congr hu.1 (fun depth => ih u.length (by omega) hu.2 depth rfl) depth
      rw [Text.substitute]
      cases hf : Expression.readBareKey (c :: u) with
      | none => exact hcopy
      | some r =>
        obtain ⟨out, rest⟩ := r
        simp only
        split
        · rename_i hlen
          obtain ⟨name, hname, hused, rfl⟩ := Expression.readBareKey_eq_some hf
          have hall : ∀ d ∈ c :: u, isQuote d = false := List.forall_mem_cons.2 hu
          have hrest : ∀ d ∈ rest, isQuote d = false := fun d hd => hall d (by rw [hused]; simp [hd])
          rw [List.append_assoc, (hasTopComma_key hname depth _).1, ih rest.length (by omega) hrest depth rfl, hused,
            List.cons_append, List.append_assoc, List.cons_append, (hasTopComma_key hname depth _).2]
        · exact hcopy

/-- Without backslashes a literal ends where the reader of arguments takes it to end, or with the text. -/
theorem hasTopComma_readLiteral {q : Char} (hq : isQuote q = true) (h : Uncovered '\\' (.inside q) s) :
    (Expression.readLiteral q s).2 = [] ∨ ∀ depth t,
      hasTopComma ⟨some q, depth⟩ ((Expression.readLiteral q s).1 ++ t) = hasTopComma ⟨none, depth⟩ t := by
  induction hn : s.length using Nat.strongRecOn generalizing s with
  | ind n ih =>
    obtain _ | ⟨c, _ | ⟨d, s⟩⟩ := s
    · exact .inl rfl
    · exact .inl rfl
    · simp only [List.length_cons] at hn
      have hslash : c ≠ '\\' := fun hc => absurd (h.1 hc) Mode.noConfusion
      have htail := h.2
      rw [step_inside hq hslash] at htail
      by_cases hc : c = q
      · rw [Expression.readLiteral, if_neg hslash, if_pos hc]
        refine .inr fun depth t => ?_
        rw [List.singleton_append, hasTopComma]
        simp only [hc, if_true]
      · rw [if_neg hc] at htail
        rw [Expression.readLiteral_cons hslash hc (List.cons_ne_nil d s)]
        refine (ih (s.length + 1) (by omega) htail rfl).imp_right fun hrest depth t => ?_
        rw [List.cons_append, hasTopComma]
        simp only [if_neg hc]
        exact hrest depth t

theorem hasTopComma_quoteKeys (h : Uncovered '\\' .outside s) (depth : Nat) :
    hasTopComma ⟨none, depth⟩ (Expression.quoteKeys s) = hasTopComma ⟨none, depth⟩ s := by
  rw [Expression.quoteKeys]
  induction hn : s.length using Nat.strongRecOn generalizing s depth with
  | ind n ih =>
    rcases Expression.unquoted_or_cut s with hplain | ⟨plain, q, rest, rfl, hq, hplain⟩
    · have hkeys := hasTopComma_substitute_readBareKey hplain (s := []) (t := []) (fun _ => rfl) depth
      rw [Expression.mapUnquoted_eq_self hplain]
      simpa using hkeys
    · simp only [List.length_append, List.length_cons] at hn
      have hlength := Expression.readLiteral_length q rest
      have hopen : Mode.step true .outside q = .inside q := by rw [Mode.step, hq]; rfl
      rw [Expression.uncovered_append, (Expression.complete_of_unquoted (x := '\\') hplain).2] at h
      have hcovered : Uncovered '\\' (.inside q) rest := hopen ▸ h.2.2
      have htail := (Expression.Uncovered.readLiteral hq hcovered).2
      rw [Expression.mapUnquoted_of_plain hplain hq, List.append_assoc]
      refine hasTopComma_substitute_readBareKey hplain (fun depth => ?_) depth
      have hquote (s : Chars) : hasTopComma ⟨none, depth⟩ (q :: s) = hasTopComma ⟨some q, depth⟩ s := by
        rw [hasTopComma]
        simp only [hq, if_true]
      conv_rhs => rw [← Expression.readLiteral_append q rest]
      rw [List.cons_append, hquote, hquote]
      rcases hasTopComma_readLiteral hq hcovered with hnil | hliteral
      · rw [hnil, Expression.mapUnquoted_eq_self (List.forall_mem_nil _), Text.substitute_nil]
      · rw [hliteral, hliteral, ih _ (by omega) htail depth rfl]

/-- The reader of arguments finds what one finds that knows escapes and sees no backslashes. -/
theorem hasTopComma_eq_topComma_filter (s : Chars) :
    hasTopComma {} s = topComma .outside 0 (s.filter (· != '\\')) := by
  have hbare : Uncovered '\\' .outside (s.filter (· != '\\')) := Expression.uncovered_of_not_mem (by simp)
  have hfilter (s : Chars) := @hasTopComma_filter {} (fun q hq => absurd hq (Option.some_ne_none q).symm) s
  have hcounts : (s.filter (· != '\\')).filter counts = s.filter counts := by
    rw [List.filter_filter]
    refine List.filter_congr fun c _ => ?_
    by_cases hc : c = '\\'
    · subst hc; rfl
    · simp [hc]
  rw [← (hasTopComma_eq_topComma _ 0).1 hbare, ← hfilter, ← hcounts]
  exact hfilter _

/-- The translation of arguments has commas outside literals and brackets where they have. -/
theorem hasTopComma_translate (h : Uncovered '\\' .outside s) :
    hasTopComma {} (translate s) = topComma .outside 0 s := by
  have hfilter (s : Chars) := @hasTopComma_filter {} (fun q hq => absurd hq (Option.some_ne_none q).symm) s
  rw [← hfilter, filter_counts_translate, hfilter]
  exact (hasTopComma_quoteKeys h 0).trans ((hasTopComma_eq_topComma s 0).1 h)

end

end ViewBridge.Directive

namespace ViewBridge.Translator

open Directive (Callee topComma asTaken)
open Expression (Mode Complete ArgumentList shuts)

/-- The output for one call with translated arguments: a filter, where there is one for the function and there
are not several arguments, or the call. -/
def emitCallee (t : Translator) (several : Bool) (args : Chars) : Callee → Chars
  | .function name =>
    let call := t.dialect.rawOutput ('(' :: name.1 ++ '(' :: args ++ "))".toList)
    if args ≠ [] ∧ several = false then (t.dialect.filterForm? name.1 args).getD call else call
  | .method object member chain =>
    t.dialect.rawOutput ('(' :: object.1 ++ (member :: chain).flatMap (fun m => '.' :: m.1) ++
      '(' :: args ++ "))".toList)

/-- The output for a body that is no call. -/
def emitOther (t : Translator) (body : Chars) : Chars :=
  t.dialect.rawOutput ('(' :: Expression.translate body ++ [')'])

variable {t : Translator} {callee : Callee} {gap : Expression.Blanks} {args : Chars}

theorem emitFunction_callee (t : Translator) (callee : Callee) (gap : Expression.Blanks) (args : Chars) :
    t.emitFunction (callee.source gap args) =
      if Directive.closesAtEnd {} args = true then
        t.emitCallee (Directive.hasTopComma {} (Expression.translate args)) (Expression.translate args) callee
      else t.emitOther (callee.source gap args) := by
  rw [emitFunction, Directive.readFunctionBody_callee]
  by_cases hread : Directive.closesAtEnd {} args = true
  · rw [if_pos hread, if_pos hread]
    cases callee with
    | function name =>
      simp only [Callee.call, emitCallee, Bool.not_eq_true]
      split <;> rfl
    | method object member chain =>
      simp only [Callee.call, emitCallee, ← List.map_cons, List.flatMap_map]
  · rw [if_neg hread, if_neg hread]
    rfl

/-- A body with a callee is one call if its parentheses are closed by its last character, for a reader that sees
no backslashes and closes what is open at the end; without backslashes in literals, and with all of them closed,
this is what a reader sees that knows escapes. A filter is written only where that reader finds one argument. -/
theorem emitFunction_source (t : Translator) (callee : Callee) (gap : Expression.Blanks) (args : Chars) :
    (t.emitFunction (callee.source gap args) =
      if shuts .outside 0 (asTaken args ++ [')']) = true then
        t.emitCallee (topComma .outside 0 ((Expression.translate args).filter (· != '\\')))
          (Expression.translate args) callee
      else t.emitOther (callee.source gap args)) ∧
    (Complete '\\' args →
      t.emitFunction (callee.source gap args) =
        (if shuts .outside 0 (args ++ [')']) = true then
          t.emitCallee (topComma .outside 0 args) (Expression.translate args) callee
        else t.emitOther (callee.source gap args)) ∧
      ∀ inner rest, ArgumentList inner → args = inner ++ ')' :: rest →
        t.emitFunction (callee.source gap args) = t.emitOther (callee.source gap args)) := by
  have hcommas : Directive.hasTopComma {} (Expression.translate args) =
      topComma .outside 0 ((Expression.translate args).filter (· != '\\')) :=
    Directive.hasTopComma_eq_topComma_filter (Expression.translate args)
  refine ⟨?_, fun h => ?_⟩
  · rw [emitFunction_callee, Directive.closesAtEnd_iff, hcommas]
  · have hemit : t.emitFunction (callee.source gap args) = _ := emitFunction_callee t callee gap args
    rw [Directive.closesAtEnd_of_complete h, Directive.hasTopComma_translate h.1] at hemit
    refine ⟨hemit, ?_⟩
    rintro inner rest hinner rfl
    have hjoined : shuts .outside 0 (inner ++ ')' :: rest ++ [')']) = false := by
      rw [List.append_assoc, hinner.shuts, List.cons_append, shuts, if_neg (by simp), if_pos ⟨rfl, rfl⟩, if_pos rfl]
      simp
    rw [hemit, hjoined, if_neg Bool.false_ne_true]

/-- Two calls that are joined, the first of them with a parenthesis in its literal. -/
theorem emitFunction_source_joined :
    let t : Translator := { dialect := .twig }
    let callee : Callee := .function ⟨"htmlspecialchars".toList, rfl, Expression.forall_mem_of_all (by decide)⟩
    let gap : Expression.Blanks := ⟨[], List.forall_mem_nil _⟩
    let args := "')') . nl2br($b".toList
    Complete '\\' args ∧ ArgumentList "')'".toList ∧
      t.emitFunction (callee.source gap args) = t.emitOther (callee.source gap args) := by
  have hcomplete : Complete '\\' "')') . nl2br($b".toList := by decide
  have hinner : ArgumentList "')'".toList := .literal ⟨'\x27', [')'], rfl, rfl⟩ .nil
  exact ⟨hcomplete, hinner, ((emitFunction_source _ _ _ _).2 hcomplete).2 _ " . nl2br($b".toList hinner rfl⟩

end ViewBridge.Translator
