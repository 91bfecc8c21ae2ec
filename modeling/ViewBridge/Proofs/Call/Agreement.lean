import ViewBridge.Proofs.Idempotence
import ViewBridge.Proofs.Engine.Loop
import ViewBridge.Proofs.Call.Rendering
import ViewBridge.Proofs.Template.Unread
/-!
# Filters and functions

A call that is written as a filter is meant to print what the function prints. Where the two escape different
characters they do not: a filter's result is escaped as output is, with entities of its own for an apostrophe and a
slash, and one that is marked safe already is left as it is.

Results:
* `escapeMarkup_eq_escape_iff`, `escapeMarkup_eq_self_iff`: when two escapes agree.
* `isFormSafe_print`: numbers and truth values have nothing that is escaped.
* `output_filter_eq_call_iff`: for which values a filter prints what the function prints.
* `renderText_filter_eq_call_iff`: the same of what an engine renders.
-/
namespace ViewBridge

/-! ## Marks in texts -/

/-- Whether a text has none of some characters. -/
def Lacks (marks s : Chars) : Prop := ∀ c ∈ s, c ∉ marks

instance (marks s : Chars) : Decidable (Lacks marks s) :=
  decidable_of_iff ((s.all fun c => !marks.contains c) = true) (by simp [Lacks])

section
variable {α β : Type} {f g : α → List β}

/-- Two ways to write each character write the same text only if they write each of its characters alike, if what
they write differs within what is written. -/
theorem flatMap_eq_flatMap_iff (h : ∀ c, f c = g c ∨ ∀ s t, f c ++ s ≠ g c ++ t) (l : List α) :
    l.flatMap f = l.flatMap g ↔ ∀ c ∈ l, f c = g c := by
  induction l with
  | nil => simp
  | cons c l ih =>
    rw [List.flatMap_cons, List.flatMap_cons, List.forall_mem_cons]
    rcases h c with heq | hne
    · rw [heq, List.append_cancel_left_eq, ih]
      exact (and_iff_right rfl).symm
    · refine iff_of_false (hne _ _) fun hall => hne [] [] ?_
      rw [hall.1]

/-- A text is written as it is only if each of its characters is. -/
theorem flatMap_eq_self_iff {f : Char → Chars} (h : ∀ c, f c = [c] ∨ 1 < (f c).length) (s : Chars) :
    s.flatMap f = s ↔ ∀ c ∈ s, f c = [c] := by
  have hlength (t : Chars) : t.length ≤ (t.flatMap f).length := by
    induction t with
    | nil => exact Nat.le_refl 0
    | cons c t ih =>
      rw [List.flatMap_cons, List.length_append, List.length_cons]
      rcases h c with hc | hc
      · rw [hc, List.length_singleton]
        omega
      · omega
  induction s with
  | nil => simp
  | cons c s ih =>
    rw [List.flatMap_cons, List.forall_mem_cons]
    rcases h c with hc | hc
    · simp only [hc, List.singleton_append, List.cons.injEq, true_and, ih]
    · refine iff_of_false (fun heq => ?_) fun hall => ?_
      · have hlong := congrArg List.length heq
        rw [List.length_append, List.length_cons] at hlong
        have := hlength s
        omega
      · rw [hall.1, List.length_singleton] at hc
        omega

end

/-! ## Escapes -/

open Template (Escaping)

/-- An escape that writes certain characters longer, and all others as they are. -/
theorem flatMap_eq_self_iff_lacks {f : Char → Chars} {marks : Chars}
    (hmarks : (marks.all fun c => decide (1 < (f c).length)) = true)
    (hothers : ∀ c, c ∉ marks → f c = [c]) (s : Chars) : s.flatMap f = s ↔ Lacks marks s := by
  have hlonger (c : Char) (hc : c ∈ marks) : 1 < (f c).length := of_decide_eq_true (List.all_eq_true.1 hmarks c hc)
  have hchar (c : Char) : f c = [c] ↔ c ∉ marks := by
    refine ⟨fun h hc => ?_, hothers c⟩
    have := hlonger c hc
    rw [h, List.length_singleton] at this
    omega
  have hall (c : Char) : f c = [c] ∨ 1 < (f c).length := by
    by_cases hc : c ∈ marks
    · exact .inr (hlonger c hc)
    · exact .inl (hothers c hc)
  rw [flatMap_eq_self_iff hall]
  exact forall₂_congr fun c _ => hchar c

theorem escapeMarkup_eq_self_iff (s : Chars) : Escaping.escapeMarkup s = s ↔ Lacks "<>&\x22\x27/".toList s := by
  refine flatMap_eq_self_iff_lacks (by decide) (fun c hc => ?_) s
  have hne {d : Char} (hd : d ∈ "<>&\x22\x27/".toList) : c ≠ d := fun h => hc (h ▸ hd)
  simp only [Escaping.entity, hne (d := '<') (by decide), hne (d := '>') (by decide), hne (d := '&') (by decide),
    hne (d := '\x22') (by decide), hne (d := '\x27') (by decide), hne (d := '/') (by decide), if_false]

theorem escape_eq_self_iff (s : Chars) : Html.escape s = s ↔ Lacks "<>&\x22\x27".toList s := by
  refine flatMap_eq_self_iff_lacks (by decide) (fun c hc => ?_) s
  have hne {d : Char} (hd : d ∈ "<>&\x22\x27".toList) : c ≠ d := fun h => hc (h ▸ hd)
  simp only [Html.entity, hne (d := '<') (by decide), hne (d := '>') (by decide), hne (d := '&') (by decide),
    hne (d := '\x22') (by decide), hne (d := '\x27') (by decide), if_false]

theorem markupEscape_eq_self_iff (s : Chars) :
    s.flatMap Template.Filter.markupEscape = s ↔ Lacks "<>&\x27".toList s := by
  refine flatMap_eq_self_iff_lacks (by decide) (fun c hc => ?_) s
  have hne {d : Char} (hd : d ∈ "<>&\x27".toList) : c ≠ d := fun h => hc (h ▸ hd)
  simp only [Template.Filter.markupEscape, hne (d := '<') (by decide), hne (d := '>') (by decide),
    hne (d := '&') (by decide), hne (d := '\x27') (by decide), if_false]

/-- The two escapes of markup differ in an apostrophe and in a slash alone. -/
theorem escapeMarkup_eq_escape_iff (s : Chars) :
    Escaping.escapeMarkup s = Html.escape s ↔ Lacks "\x27/".toList s := by
  have hsame (c : Char) (hc : c ∉ "\x27/".toList) : Escaping.entity c = Html.entity c := by
    have hne {d : Char} (hd : d ∈ "\x27/".toList) : c ≠ d := fun h => hc (h ▸ hd)
    unfold Escaping.entity Html.entity
    simp only [hne (d := '\x27') (by decide), hne (d := '/') (by decide), if_false]
    split_ifs <;> first | rfl | (rename_i h h'; cases h.symm.trans h')
  have hdiffer (c : Char) (hc : c ∈ "\x27/".toList) (s t : Chars) : Escaping.entity c ++ s ≠ Html.entity c ++ t := by
    simp only [String.reduceToList, List.mem_cons, List.not_mem_nil, or_false] at hc
    rcases hc with rfl | rfl
    · simp [Escaping.entity, Html.entity]
    · simp [Escaping.entity, Html.entity]
  have hchar (c : Char) : Escaping.entity c = Html.entity c ↔ c ∉ "\x27/".toList :=
    ⟨fun h hc => hdiffer c hc [] [] (by rw [h]), hsame c⟩
  have hall (c : Char) : Escaping.entity c = Html.entity c ∨ ∀ s t, Escaping.entity c ++ s ≠ Html.entity c ++ t := by
    by_cases hc : c ∈ "\x27/".toList
    · exact .inr (hdiffer c hc)
    · exact .inl (hsame c hc)
  rw [Escaping.escapeMarkup, Html.escape, flatMap_eq_flatMap_iff hall]
  exact forall₂_congr fun c _ => hchar c

/-! ## Numbers -/

/-- A text of letters, digits and the marks of numbers. -/
def FormSafe (s : Chars) : Prop := ∀ c ∈ s, Text.isFormSafe c = true

instance (s : Chars) : Decidable (FormSafe s) := decidable_of_iff (s.all Text.isFormSafe = true) List.all_eq_true

namespace FormSafe

variable {s t : Chars}

theorem append (hs : FormSafe s) (ht : FormSafe t) : FormSafe (s ++ t) :=
  fun c hc => (List.mem_append.1 hc).elim (hs c) (ht c)

theorem cons {c : Char} (hc : Text.isFormSafe c = true) (hs : FormSafe s) : FormSafe (c :: s) :=
  List.forall_mem_cons.2 ⟨hc, hs⟩

theorem zeros (n : Nat) : FormSafe (List.replicate n '0') := by
  intro c hc
  rw [List.eq_of_mem_replicate hc]
  rfl

theorem ofNat (n : Nat) : FormSafe (Text.ofNat n) := by
  intro c hc
  have hdigit := Shelf.isDigit_of_mem_ofNat hc
  simp only [Text.isFormSafe, hdigit, Bool.or_true, Bool.true_or]

theorem ofInt (n : Int) : FormSafe (Text.ofInt n) := by
  cases n with
  | ofNat n => exact ofNat n
  | negSucc n => exact cons rfl (ofNat (n + 1))

theorem digits_ofNat (x : Nat) (g : Int) : FormSafe (Digits.ofNat x g).digits := by
  intro c hc
  have hmem : c ∈ (Text.ofNat x).reverse :=
    (List.dropWhile_suffix (· == '0')).subset (List.mem_reverse.1 hc)
  exact ofNat x c (List.mem_reverse.1 hmem)

theorem digits_search (r : Digits.Reach) (num den : Nat) (k : Int) (fuel n : Nat) :
    FormSafe (Digits.search r num den k fuel n).digits := by
  induction fuel generalizing n with
  | zero => exact digits_ofNat _ _
  | succ fuel ih =>
    rw [Digits.search]
    split
    · exact digits_ofNat _ _
    · exact ih (n + 1)

theorem positional {d : Digits} (h : FormSafe d.digits) : FormSafe (FloatStyle.positional d) := by
  have hpoint : FormSafe ['.', '0'] := by decide
  unfold FloatStyle.positional
  split
  · exact .cons rfl (.cons rfl ((zeros _).append h))
  · dsimp only
    split
    · exact (h.append (zeros _)).append hpoint
    · have htake : FormSafe (d.digits.take d.point.toNat) := fun c hc => h c (List.mem_of_mem_take hc)
      have hdrop : FormSafe (d.digits.drop d.point.toNat) := fun c hc => h c (List.mem_of_mem_drop hc)
      exact htake.append (.cons rfl hdrop)

theorem render_printed (x : Float) : FormSafe (FloatStyle.printed.render x) := by
  have hsign (neg : Bool) : FormSafe (if neg then ['-'] else []) := by cases neg <;> decide
  unfold FloatStyle.render
  split
  · decide
  · split <;> decide
  · rename_i neg m q _
    dsimp only
    split
    · exact (hsign neg).append (by decide)
    · exact (hsign neg).append (positional (digits_search _ _ _ _ _ _))

/-- Numbers and truth values have nothing that is escaped. -/
theorem print {v : Value} (h : Escaping.isBare v = true) (hnone : v ≠ .none) : FormSafe v.print := by
  cases v with
  | undefined => exact fun c hc => nomatch hc
  | none => exact absurd rfl hnone
  | bool b => cases b <;> decide
  | int n => exact ofInt n
  | float x => exact render_printed x
  | _ => cases h

theorem lacks {marks : Chars} (h : FormSafe s) (hmarks : (marks.all fun c => !Text.isFormSafe c) = true) :
    Lacks marks s := by
  intro c hc hmark
  have hunsafe := List.all_eq_true.1 hmarks c hmark
  rw [h c hc] at hunsafe
  cases hunsafe

end FormSafe

/-! ## Encoded texts -/

theorem isFormSafe_upperHexDigit {n : Nat} (h : n < 16) : Text.isFormSafe (Text.upperHexDigit n) = true := by
  have every : ∀ n < 16, Text.isFormSafe (Text.upperHexDigit n) = true := by decide
  exact every n h

/-- Form encoding leaves nothing that is escaped. -/
theorem escapeMarkup_formEncode (s : Chars) : Escaping.escapeMarkup (Text.formEncode s) = Text.formEncode s := by
  have hmarks : ("<>&\x22\x27/".toList.all fun c => !Text.isFormSafe c) = true := by decide
  have hchar (c : Char) : Lacks "<>&\x22\x27/".toList (Text.formEncodeChar c) := by
    unfold Text.formEncodeChar
    split
    · rename_i hsafe
      have hone : FormSafe [c] := .cons hsafe fun _ h => nomatch h
      exact hone.lacks hmarks
    · split
      · decide
      · intro d hd
        obtain ⟨b, -, hd⟩ := List.mem_flatMap.1 hd
        rcases List.mem_cons.1 hd with rfl | hd
        · decide
        · have hlow : b.toNat / 16 < 16 := Nat.div_lt_of_lt_mul b.toNat_lt
          have hhigh : b.toNat % 16 < 16 := Nat.mod_lt _ (by decide)
          have hdigits : FormSafe [Text.upperHexDigit (b.toNat / 16), Text.upperHexDigit (b.toNat % 16)] :=
            .cons (isFormSafe_upperHexDigit hlow) (.cons (isFormSafe_upperHexDigit hhigh) fun _ h => nomatch h)
          exact hdigits.lacks hmarks d hd
  rw [escapeMarkup_eq_self_iff]
  intro c hc
  obtain ⟨d, -, hc⟩ := List.mem_flatMap.1 hc
  exact hchar d c hc

/-! ## Filters and functions on a value -/

namespace Helper

/-- The values that the filter for a function prints as the function does. An apostrophe and a slash are escaped in
two ways, what is marked safe is not escaped by the filter but by the function, and nothing is escaped behind a
function in raw output. -/
def Agrees (v : Value) : Helper → Prop
  | htmlspecialchars =>
    match v with
    | .none => False
    | .text true s => Lacks "<>&\x22\x27".toList s
    | v => Lacks "\x27/".toList v.print
  | stripTags => Lacks "<>&\x22\x27/".toList (Html.stripTags v.legacyText)
  | jsonEncode => ∀ s, v.jsonText? = some s → Lacks "<>&\x27".toList s
  | _ => True

/-- What a call of a function with a value prints in raw output. -/
def printed (c : HelperContext) (f : Helper) (v : Value) : Option Chars := ((f.call c [v]).map Value.print).toOption

end Helper

namespace Template

/-- What a value that is piped through a filter prints in markup. -/
def Filter.printed (filter : Chars) (v : Value) : Option Chars :=
  (Filter.apply .markup filter [v] []).toOption.bind fun w => (Escaping.markup.write w).toOption

section
variable {v : Value}

theorem run_unary (f : Value → Except RenderError Value) (v : Value) : (Helper.unary f).run [v] = f v := by
  have hrun (result : Except RenderError Value) : (Helper.unary fun _ => result).run [v] = result := by
    cases result <;> rfl
  exact hrun (f v)

theorem printed_of_find? {filter : Chars} {f : Value → Except RenderError Value}
    (h : Filter.find? .markup filter = some (Helper.unary f)) (v : Value) :
    Filter.printed filter v = (f v).toOption.bind fun w => (Escaping.markup.write w).toOption := by
  rw [Filter.printed, LoopTemplate.apply_of_find? h, run_unary]

theorem printed_escape (h : v.isSafe = false) : Filter.printed "escape".toList v =
    some (if Escaping.isBare v then v.print else Escaping.escapeMarkup v.print) := by
  have hwrite : Escaping.markup.write v =
      .ok (if Escaping.isBare v then v.print else Escaping.escapeMarkup v.print) := by
    cases v with
    | text safe s =>
      cases safe with
      | true => cases h
      | false => rfl
    | _ => rfl
  have hescape : Filter.escape .markup v =
      .ok (.safeText (if Escaping.isBare v then v.print else Escaping.escapeMarkup v.print)) := by
    rw [Filter.escape, if_neg (by simp [h]), if_neg (by decide), hwrite]
  rw [printed_of_find? (f := Filter.escape .markup) rfl, hescape]
  rfl

theorem apply_tojson (v : Value) :
    Filter.apply .markup "tojson".toList [v] [] = Filter.jsonInMarkup v none := by
  have hnone : Filter.find? .markup "tojson".toList = none := rfl
  have hsome : Filter.findWithOptions? "tojson".toList = some Filter.toJson := rfl
  have hlift : Filter.toJson [] [v] = (liftM (Filter.jsonInMarkup v none) : Arguments Value) [] := rfl
  have hrun : (Filter.toJson []).run [v] = Filter.jsonInMarkup v none := by
    rw [Arguments.run, hlift]
    cases Filter.jsonInMarkup v none <;> rfl
  unfold Filter.apply
  simp only [hnone, hsome, hrun]

theorem printed_tojson (v : Value) :
    Filter.printed "tojson".toList v = v.jsonText?.map fun s => s.flatMap Filter.markupEscape := by
  rw [Filter.printed, apply_tojson, Filter.jsonInMarkup, Value.jsonText?]
  cases v.toJson? <;> rfl

theorem printed_jsonEncode (c : HelperContext) (v : Value) : Helper.printed c .jsonEncode v = v.jsonText? := by
  have hrun : Helper.jsonEncode.call c [v] = Helper.jsonMarkup v := run_unary Helper.jsonMarkup v
  rw [Helper.printed, hrun, Helper.jsonMarkup]
  cases v.jsonText? <;> rfl

/-- JSON that may stand in markup is JSON if it has no markup in it. -/
theorem jsonText?_markupEscape_eq_iff (v : Value) :
    v.jsonText?.map (fun s => s.flatMap Filter.markupEscape) = v.jsonText? ↔
      ∀ s, v.jsonText? = some s → Lacks "<>&\x27".toList s := by
  cases v.jsonText? with
  | none => simp
  | some s => simp [markupEscape_eq_self_iff]

/-- What is not marked safe is escaped alike unless there is an apostrophe or a slash in it, or it is none, which the
function takes to be empty. -/
theorem printed_escape_eq_iff (h : v.isSafe = false) :
    Filter.printed "escape".toList v = some (Html.escape v.legacyText) ↔ v ≠ .none ∧ Lacks "\x27/".toList v.print := by
  rw [printed_escape h, Option.some.injEq]
  by_cases hnone : v = .none
  · subst hnone
    exact iff_of_false (by decide) fun h => h.1 rfl
  · have htext : v.legacyText = v.print := by
      cases v with
      | none => exact absurd rfl hnone
      | _ => rfl
    rw [htext, and_iff_right hnone]
    split
    · rename_i hbare
      have hsafe : FormSafe v.print := .print hbare hnone
      have hescape : Html.escape v.print = v.print := (escape_eq_self_iff _).2 (hsafe.lacks (by decide))
      exact iff_of_true hescape.symm (hsafe.lacks (by decide))
    · exact escapeMarkup_eq_escape_iff v.print

end

/-- A filter prints what the function prints for the values that both escape alike, and for no others. -/
theorem printed_filter_eq_call_iff {f : Helper} {filter : Chars} (h : Dialect.minijinja.filterOf? f.name = some filter)
    (c : HelperContext) (v : Value) : Filter.printed filter v = f.printed c v ↔ f.Agrees v := by
  cases f with
  | htmlspecialchars =>
    obtain rfl := Option.some.inj h
    have hcall : Helper.printed c .htmlspecialchars v = some (Html.escape v.legacyText) := rfl
    rw [hcall]
    by_cases hsafe : v.isSafe = true
    · obtain ⟨s, rfl⟩ : ∃ s, v = .text true s := by
        cases v with
        | text safe s => exact ⟨s, congrArg (Value.text · s) hsafe⟩
        | _ => cases hsafe
      have hfilter : Filter.printed "escape".toList (.text true s) = some s := by
        rw [printed_of_find? (f := Filter.escape .markup) rfl]
        rfl
      rw [hfilter, Option.some.injEq, eq_comm]
      exact escape_eq_self_iff s
    · rw [printed_escape_eq_iff (Bool.eq_false_iff.2 hsafe)]
      cases v with
      | none => exact iff_of_false (fun h => h.1 rfl) id
      | text safe s =>
        cases safe with
        | true => exact absurd rfl hsafe
        | false => exact and_iff_right (by simp)
      | _ => exact and_iff_right (by simp)
  | stripTags =>
    obtain rfl := Option.some.inj h
    have hcall : Helper.printed c .stripTags v = some (Html.stripTags v.legacyText) := rfl
    have hfilter : Filter.printed "striptags".toList v = some (Escaping.escapeMarkup (Html.stripTags v.legacyText)) := by
      rw [printed_of_find? (f := fun v => .ok (.ofChars (Html.stripTags v.legacyText))) rfl]
      rfl
    rw [hcall, hfilter, Option.some.injEq, escapeMarkup_eq_self_iff]
    rfl
  | nl2br =>
    obtain rfl := Option.some.inj h
    refine iff_of_true ?_ trivial
    rw [printed_of_find? (f := fun v => .ok (Helper.withBreaks v)) rfl]
    rfl
  | urlencode =>
    obtain rfl := Option.some.inj h
    have hfilter : Filter.printed "url_encode".toList v =
        some (Escaping.escapeMarkup (Text.formEncode v.legacyText)) := by
      rw [printed_of_find? (f := fun v => .ok (.ofChars (Text.formEncode v.legacyText))) rfl]
      rfl
    refine iff_of_true ?_ trivial
    rw [hfilter, escapeMarkup_formEncode]
    rfl
  | jsonEncode =>
    obtain rfl := Option.some.inj h
    rw [printed_jsonEncode, printed_tojson]
    exact jsonText?_markupEscape_eq_iff v
  | addslashes =>
    obtain rfl := Option.some.inj h
    refine iff_of_true ?_ trivial
    rw [printed_of_find? (f := fun v => .ok (.safeText (Text.addSlashes v.legacyText))) rfl]
    rfl
  | _ => cases h

/-! ## Expressions -/

section
variable {s : Scope} {f : Helper} {e : Expr} {v : Value}

theorem helper?_of_enabled {tools : Toolbox} (hf : f ∈ tools.enabled) : tools.helper? f.name = some f := by
  cases hfind : tools.helper? f.name with
  | none => exact absurd (beq_iff_eq.2 rfl) (List.find?_eq_none.1 hfind f hf)
  | some g =>
    have hsome := List.find?_some hfind
    have hname : g.name = f.name := beq_iff_eq.1 hsome
    have hg := Helper.ofName?_name g
    rw [hname, Helper.ofName?_name] at hg
    exact hg.symm

/-- The name of an enabled function calls it, if it stands for nothing else. -/
theorem call_of_enabled (hf : f ∈ s.tools.enabled) (hframes : lookupIn s.frames f.name = none) (args : List Value) :
    s.call f.name args = f.call s.tools.context args := by
  have hreserved : ∀ g ∈ Helper.all, Scope.isReservedCall g.name = false := by decide +kernel
  have hfunction : s.tools.function? f.name = some (.callable f.name) := by
    rw [Toolbox.function?, helper?_of_enabled hf]
    rfl
  rw [Scope.call, hreserved f f.mem_all, Scope.lookup?, hframes, hfunction]
  simp only [Bool.false_eq_true, if_false, Option.none_or, Toolbox.callValue, Toolbox.callNamed, helper?_of_enabled hf]

theorem toOption_output (s : Scope) (x : Expr) :
    (s.output x).toOption = (x.eval s).toOption.bind fun w => (s.escaping.write w).toOption := by
  rw [Scope.output]
  cases x.eval s with
  | error cause => rfl
  | ok w =>
    simp only [bind, Except.bind]
    cases hwrite : s.escaping.write w <;> simp only [Except.toOption, Option.bind_some, hwrite] <;> rfl

/-- What a filter prints of an expression. -/
theorem toOption_output_filter (hs : s.escaping = .markup) (h : e.eval s = .ok v) (filter : Chars) :
    (s.output (.filter e filter [] [])).toOption = Filter.printed filter v := by
  have hmode : s.filterMode = .markup := by
    rw [Scope.filterMode, hs, if_neg (by decide)]
  rw [toOption_output, Expr.eval_filter h, hmode, toOption_located, hs]
  rfl

/-- What a call prints in raw output. -/
theorem toOption_output_call (hs : s.escaping = .markup) (h : e.eval s = .ok v) (hf : f ∈ s.tools.enabled)
    (hframes : lookupIn s.frames f.name = none) (line : Nat) :
    (s.output (.filter (.call line f.name [e]) "safe".toList [] [])).toOption = f.printed s.tools.context v := by
  have hargs : Expr.evalAll s [e] = .ok [v] := by
    rw [Expr.evalAll, h, Expr.evalAll]
    rfl
  have hcall : (Expr.call line f.name [e]).eval s =
      s.located (Expr.lastLineOf line [e]) (f.call s.tools.context [v]) := by
    rw [Expr.eval, hargs, ← call_of_enabled hf hframes [v]]
    rfl
  cases hanswer : f.call s.tools.context [v] with
  | error cause =>
    rw [hanswer] at hcall
    rw [toOption_output, Expr.eval, hcall, Helper.printed, hanswer]
    rfl
  | ok w =>
    rw [hanswer] at hcall
    rw [toOption_output_filter hs hcall, Filter.printed, LoopTemplate.apply_safe, Helper.printed, hanswer]
    rfl

end

end Template

/-! ## Engines -/

namespace Engine

open Template Translator
open LoopTemplate (IsVariable outside)

/-- A call with a variable in raw output, as a text of the target language. -/
def rawCall (name x : Chars) : Chars := Dialect.minijinja.rawOutput ('(' :: (name ++ '(' :: (x ++ [')'])) ++ [')'])

section
variable {e : Engine} {f : Helper} {x : Chars}

theorem read_rawCall (f : Helper) (hx : IsVariable x) :
    read (rawCall f.name x) = .ok [.output (.filter (.call 1 f.name [.var 1 x]) "safe".toList [] [])] := by
  have hname := isIdentifier_name f
  have hx' : NamesVariable x := LoopTemplate.namesVariable_of_ne hx.2
  obtain ⟨fuel, hfuel, htokens⟩ := tokens_call hname.1 (List.all_eq_true.2 hname.2) (x ++ [')'])
  rw [List.append_assoc] at hfuel htokens
  have hlength : callEnd.length = 9 := rfl
  have hpos : 0 < x.length := List.length_pos_iff.2 hx.1.ne_nil
  simp only [List.length_append, List.length_cons, List.length_nil, hlength] at hfuel
  obtain ⟨fuel, rfl⟩ : ∃ m, fuel = m + 1 + 1 := ⟨fuel - 2, by omega⟩
  obtain ⟨rest, hend, ⟨-, rfl⟩ | ⟨hne, -⟩⟩ := scanTag_callEnd fuel (by rw [hlength]; omega) 1 1
  swap
  · exact absurd rfl hne
  have hclose (s : Chars) : readToken (')' :: s) = (.mark .closeParen, s) := by cases s <;> rfl
  have hargs : scanTag (fuel + 1 + 1) .output 2 1 (x ++ ')' :: callEnd) =
      ⟨.name x, 1⟩ :: ⟨.mark .closeParen, 1⟩ :: scanTag fuel .output 1 1 callEnd := by
    rw [scanTag_name _ _ hx.1.1 (List.all_eq_true.2 hx.1.2) rfl,
      scanTag_mark _ _ (hclose _) rfl (by decide) (by decide)]
    rfl
  rw [List.singleton_append, hargs, hend] at htokens
  have hyields : Yields 41 nestingLimit false [] (tokens (rawCall f.name x))
      (.ok ([callStmt 1 f.name [(none, .var 1 x)]], [])) := by
    rw [rawCall, htokens]
    exact yields_call (namesVariable_name f) (by decide)
      (fun fuel hfuel => run_readArguments_name hx' hfuel 145 1 _) false [] 1
  rw [read_of_yields hyields]
  · rfl
  · rw [rawCall, htokens]
    simp

/-- A call in raw output is rendered as the answer of the function. -/
theorem renderText_rawCall (f : Helper) (hx : IsVariable x) (t : FileTree) (cache : Cache) (now : Instant)
    (context : Value) : (e.renderText t cache now (rawCall f.name x) context).1 =
      ((e.scope now anonymous context).output
        (.filter (.call 1 f.name [.var 1 x]) "safe".toList [] [])).mapError .render := by
  have hbrace : '\x7b' ∉ '(' :: (f.name ++ '(' :: (x ++ [')'])) ++ [')'] := by
    simp [(isIdentifier_name f).not_mem (c := '\x7b') rfl, hx.1.not_mem (c := '\x7b') rfl]
  have hsilent : ReadsNothing e.resolver.translator (rawCall f.name x) :=
    readsNothing_of_silent (silent_rawOutput .minijinja hbrace) _
  refine renderText_output ?_ t cache now context
  rw [(e.resolver.translator.translate_eq_self_iff _).2 hsilent]
  exact read_rawCall f hx

end

section
variable {r : Resolver} {settings : EngineSettings} {e : Engine} {f : Helper} {x : Chars} {context : Value}

/-- A tag with a call of a function that there is a filter for is rendered as the same call in raw output, for the
values that both escape alike, and for no others. -/
theorem renderText_filter_eq_call_iff (he : Engine.ofResolver r settings = .ok e)
    (hfilter : (Dialect.minijinja.filterOf? f.name).isSome = true) (hf : f ∈ e.functions) (hx : IsVariable x)
    (hcontext : context.member f.name = .undefined) (t : FileTree) (cache : Cache) (now : Instant) :
    (e.renderText t cache now (callTag f.name ('$' :: x)) context).1.toOption =
        (e.renderText t cache now (rawCall f.name x) context).1.toOption ↔
      f.Agrees (outside (e.tools now) context x) := by
  obtain ⟨rfl, hdialect, -⟩ := eq_of_ofResolver he
  obtain ⟨filter, hfilter⟩ := Option.isSome_iff_exists.1 hfilter
  let s := e.scope now anonymous context
  have hvalue : (Expr.var 1 x).eval s = .ok (outside (e.tools now) context x) :=
    LoopTemplate.eval_name (LoopTemplate.sees_context (e.tools now) context) (hx.2 "loop" (by decide)) 1
  have hframes : lookupIn s.frames f.name = none := by
    show lookupIn [{ context }] f.name = none
    rw [lookupIn_context, hcontext]
  have hmarkup : s.escaping = .markup := rfl
  have hanswer (result : Except RenderError Chars) : (result.mapError Error.render).toOption = result.toOption := by
    cases result <;> rfl
  rw [renderText_filtered hdialect hx hfilter, renderText_rawCall f hx, hanswer, hanswer,
    toOption_output_filter hmarkup hvalue, toOption_output_call hmarkup hvalue hf hframes,
    printed_filter_eq_call_iff hfilter]

/-- A bracket is escaped alike, but an apostrophe is not. -/
theorem renderText_filter_eq_call_iff_apostrophe :
    let r : Resolver := ⟨⟨[], "/view".toList⟩, ⟨.minijinja, "html".toList⟩⟩
    let settings : EngineSettings := { functions := ["htmlspecialchars".toList] }
    let e : Engine := { resolver := r, functions := [.htmlspecialchars], constants := [] }
    let f := Helper.htmlspecialchars
    let context (s : Chars) : Value := .ofNamed [(['v'], .ofChars s)]
    let t := FileTree.empty []
    let tag := "\x7bfunction=\x22htmlspecialchars($v)\x22\x7d".toList
    let raw := "\x7b\x7b (htmlspecialchars(v))|safe \x7d\x7d".toList
    Engine.ofResolver r settings = .ok e ∧ (Dialect.minijinja.filterOf? f.name).isSome = true ∧ f ∈ e.functions ∧
      IsVariable ['v'] ∧ (∀ s, (context s).member f.name = .undefined) ∧
      (e.renderText t {} ⟨0, 0⟩ tag (context "a<b".toList)).1.toOption =
        (e.renderText t {} ⟨0, 0⟩ raw (context "a<b".toList)).1.toOption ∧
      (e.renderText t {} ⟨0, 0⟩ tag (context "it\x27s".toList)).1.toOption ≠
        (e.renderText t {} ⟨0, 0⟩ raw (context "it\x27s".toList)).1.toOption := by
  intro r settings e f context t tag raw
  have he : Engine.ofResolver r settings = .ok e := rfl
  have hf : f ∈ e.functions := List.mem_singleton_self f
  have hx : IsVariable ['v'] := by decide
  have hcontext (s : Chars) : (context s).member f.name = .undefined := rfl
  have htag : callTag f.name ['$', 'v'] = tag := by decide +kernel
  have hraw : rawCall f.name ['v'] = raw := by decide +kernel
  have hiff (s : Chars) := renderText_filter_eq_call_iff he rfl hf hx (hcontext s) t {} ⟨0, 0⟩
  simp only [htag, hraw] at hiff
  have hbracket : f.Agrees (.ofChars "a<b".toList) := show Lacks "\x27/".toList "a<b".toList by decide
  have hapostrophe : ¬ f.Agrees (.ofChars "it\x27s".toList) := show ¬ Lacks "\x27/".toList "it\x27s".toList by decide
  exact ⟨he, rfl, hf, hx, hcontext, (hiff "a<b".toList).2 hbracket, fun h => hapostrophe ((hiff "it\x27s".toList).1 h)⟩

end

end Engine
end ViewBridge
