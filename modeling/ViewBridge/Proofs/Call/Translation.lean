import ViewBridge.Helper
import ViewBridge.Proofs.Call.Arguments
/-!
# Translated calls

What a function tag with a call becomes: the argument with a filter behind it, where the dialect has one for the
name and there is one argument, or else the call itself in parentheses, as raw output.

Results:
* `emitFunction_of_filtered`: a call that is written as a filter.
* `exists_emitFunction_eq`: a call that is written as one, with the parenthesis that closes it.
* `isFiltered_variable`: calls with a variable, of functions that there is a filter for, are written as filters.
* `translate_callTag`: a tag with a call is translated to what the call becomes.
-/
namespace ViewBridge.Translator

/-- A call, as the body of a function tag. -/
def callBody (name args : Chars) : Chars := name ++ '(' :: (args ++ [')'])

/-- A function tag with a call. -/
def callTag (name args : Chars) : Chars := (Item.argument .call (callBody name args)).source

/-- Whether a call is written as a filter: its parentheses are closed as far as the reader of calls sees, there is
one argument, and the dialect has a filter for the name. -/
def IsFiltered (d : Dialect) (name args : Chars) : Prop :=
  Directive.closesAtEnd {} args = true ∧ Expression.translate args ≠ [] ∧
    Directive.hasTopComma {} (Expression.translate args) = false ∧ (d.filterOf? name).isSome = true

instance (d : Dialect) (name args : Chars) : Decidable (IsFiltered d name args) :=
  inferInstanceAs (Decidable (_ ∧ _))

variable {t : Translator} {name args : Chars}

theorem isIdentifier_name (f : Helper) : IsIdentifier f.name := by
  have every : ∀ g ∈ Helper.all, IsIdentifier g.name := by decide +kernel
  exact every f f.mem_all

/-! ## Bodies -/

/-- A body with a call is read as one, unless its parentheses do not seem to be closed. -/
theorem readFunctionBody_call (h : IsIdentifier name) (args : Chars) :
    Directive.readFunctionBody (callBody name args) =
      if Directive.closesAtEnd {} args = true then .call name (some args) else .other := by
  have hcall : ∀ c ∈ name, Directive.isCallChar c = true :=
    fun c hc => Bool.or_eq_true_iff.2 (.inl (h.2 c hc))
  have hspan := Text.span_append_cons hcall (show Directive.isCallChar '(' = false by decide) (args ++ [')'])
  have hargs : Directive.readArguments ('(' :: (args ++ [')'])) = some args := by
    have hbefore : Text.before? ")".toList (args ++ [')']) = some args := Text.before?_eq_some_iff.2 rfl
    rw [Directive.readArguments, show Text.after? "(".toList ('(' :: (args ++ [')'])) = some (args ++ [')']) from rfl,
      Option.bind_some, hbefore]
  have hmethod : Directive.readMethodCall (callBody name args) = none := by
    have hsigil : Text.after? "$".toList (callBody name args) = none := by
      rw [Option.eq_none_iff_forall_ne_some]
      intro r hr
      have hhead := congrArg List.head? (Text.after?_eq_some_iff.1 hr)
      cases name with
      | nil => cases h.1
      | cons c name =>
        obtain rfl : c = '$' := Option.some.inj hhead
        cases h.1
    rw [Directive.readMethodCall, hsigil]
    rfl
  have hblank : ('(' :: (args ++ [')'])).dropWhile Text.isBlank = '(' :: (args ++ [')']) :=
    List.dropWhile_cons_of_neg (by decide)
  have hplain : Directive.readPlainCall (callBody name args) =
      if Directive.closesAtEnd {} args = true then some (.call name (some args)) else none := by
    rw [Directive.readPlainCall, callBody, hspan.1, hspan.2, h.1, hblank]
    simp only [not_true_eq_false, if_false, hargs, Option.bind_some]
  rw [Directive.readFunctionBody, hmethod, hplain]
  split <;> rfl

theorem emitFunction_of_filtered (h : IsIdentifier name) (hfiltered : IsFiltered t.dialect name args) :
    ∃ filter, t.dialect.filterOf? name = some filter ∧
      t.emitFunction (callBody name args) =
        Dialect.output (operand (Expression.translate args) ++ '|' :: filter) := by
  obtain ⟨hcloses, hne, hcomma, hfilter⟩ := hfiltered
  obtain ⟨filter, hfilter⟩ := Option.isSome_iff_exists.1 hfilter
  refine ⟨filter, hfilter, ?_⟩
  rw [emitFunction, readFunctionBody_call h, if_pos hcloses]
  simp only [hne, hcomma, Dialect.filterForm?, hfilter, ne_eq, not_false_eq_true, Bool.false_eq_true, and_self, if_true,
    Option.map_some, Option.getD_some]

/-- A call that is not written as a filter ends where the last parenthesis of its own stands. -/
theorem exists_emitFunction_eq (h : IsIdentifier name) (hargs : Expression.ArgumentList args)
    (hfiltered : ¬ IsFiltered t.dialect name args) :
    ∃ behind, Expression.shuts .outside 0 behind = true ∧
      t.emitFunction (callBody name args) = t.dialect.rawOutput ('(' :: (name ++ '(' :: behind) ++ [')']) := by
  rw [emitFunction, readFunctionBody_call h]
  by_cases hcloses : Directive.closesAtEnd {} args = true
  · have hnone : (if Expression.translate args ≠ [] ∧ ¬ Directive.hasTopComma {} (Expression.translate args) then
        t.dialect.filterForm? name (Expression.translate args) else none) = none := by
      split
      · rename_i hone
        have hfilter : t.dialect.filterOf? name = none := by
          rw [← Option.not_isSome_iff_eq_none]
          exact fun hsome => hfiltered ⟨hcloses, hone.1, Bool.eq_false_iff.2 hone.2, hsome⟩
        rw [Dialect.filterForm?, hfilter, Option.map_none]
      · rfl
    refine ⟨Expression.translate args ++ [')'], hargs.shuts_translate, ?_⟩
    rw [if_pos hcloses]
    simp only [hnone, Option.getD_none]
    exact congrArg t.dialect.rawOutput (by simp)
  · obtain ⟨behind, htranslate, hshuts⟩ :=
      hargs.exists_translate_call h.2 h.ne_nil
    refine ⟨behind, hshuts, ?_⟩
    rw [if_neg hcloses]
    simp only [callBody, htranslate]

/-- What a name cannot hold is none of its characters. -/
theorem ne_of_isNameChar {c : Char} (hc : Text.isNameChar c = true) {d : Char}
    (hd : Text.isNameChar d = false) : c ≠ d := by
  rintro rfl
  rw [hd] at hc
  cases hc

theorem closesAtEnd_name {s : Chars} (h : ∀ c ∈ s, Text.isNameChar c = true) (st : Directive.ArgumentState)
    (hst : st.quote = none) : Directive.closesAtEnd st s = (st.depth == 0) := by
  induction s with
  | nil => rfl
  | cons c s ih =>
    obtain ⟨hc, hs⟩ := List.forall_mem_cons.1 h
    have hne {d : Char} (hd : Text.isNameChar d = false) : c ≠ d := ne_of_isNameChar hc hd
    rw [Directive.closesAtEnd, hst]
    simp only [(Expression.isQuote_of_nameChar hc).1, hne (d := '(') rfl, hne (d := ')') rfl, Bool.false_eq_true, if_false]
    exact ih hs

theorem hasTopComma_name {s : Chars} (h : ∀ c ∈ s, Text.isNameChar c = true) (st : Directive.ArgumentState)
    (hst : st.quote = none) : Directive.hasTopComma st s = false := by
  induction s with
  | nil => rfl
  | cons c s ih =>
    obtain ⟨hc, hs⟩ := List.forall_mem_cons.1 h
    have hne {d : Char} (hd : Text.isNameChar d = false) : c ≠ d := ne_of_isNameChar hc hd
    rw [Directive.hasTopComma, hst]
    simp only [(Expression.isQuote_of_nameChar hc).1, hne (d := '(') rfl, hne (d := ')') rfl, hne (d := '[') rfl,
      hne (d := ']') rfl, hne (d := '\x7b') rfl, hne (d := '\x7d') rfl, hne (d := ',') rfl, or_self, false_and,
      Bool.false_eq_true, if_false]
    exact ih hs

/-- A call with a variable is written as a filter wherever there is one for the name. -/
theorem isFiltered_variable {d : Dialect} {x : Chars} (hx : IsIdentifier x) (h : (d.filterOf? name).isSome = true) :
    IsFiltered d name ('$' :: x) := by
  have hcloses : Directive.closesAtEnd {} ('$' :: x) = true := closesAtEnd_name hx.2 {} rfl
  refine ⟨hcloses, ?_, ?_, h⟩
  · rw [Expression.translate_name hx]
    exact hx.ne_nil
  · rw [Expression.translate_name hx]
    exact hasTopComma_name hx.2 {} rfl

/-! ## Tags -/

/-- A function tag alone is translated to what its body becomes. -/
theorem translate_callTag (t : Translator) (h : IsIdentifier name) (hquote : '\x22' ∉ args) (hbraces : Unbraced args) :
    t.translate (callTag name args) = t.emitFunction (callBody name args) := by
  have hmem {c : Char} (hc : Text.isNameChar c = false) (hne : c ≠ '(' ∧ c ≠ ')') (hargs : c ∉ args) :
      c ∉ callBody name args := by
    simp [callBody, h.not_mem hc, hne, hargs]
  have hwell : (Item.argument .call (callBody name args)).WellFormed :=
    ⟨hmem rfl (by decide) hquote, ⟨hmem rfl (by decide) hbraces.1, hmem rfl (by decide) hbraces.2⟩,
      .inr (by simp [callBody])⟩
  have hitems : ∀ i ∈ [Item.argument .call (callBody name args)],
      i.WellFormed ∧ ∀ body, i ≠ .argument .inclusion body :=
    List.forall_mem_singleton.2 ⟨hwell, fun body => by simp⟩
  have htranslate := translate_of_no_inclusion t hitems
  rw [List.flatMap_singleton] at htranslate
  rw [callTag, htranslate, translateItems, translateItems, List.append_nil]
  rfl

end ViewBridge.Translator
