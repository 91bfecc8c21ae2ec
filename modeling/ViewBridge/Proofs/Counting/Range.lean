import ViewBridge.Proofs.Counting.Reading
/-!
# Counting loops as the engine reads them

What a counting loop becomes is read as a loop over a call of `range` with two arguments, the start and the upper
end, in both dialects.

Results:
* `run_readLevel_rangeCall`: the call in front of the end of a tag.
* `Yields.loop_over`: a loop over what is read as an expression.
* `read_loopTarget`: the loop that a counting loop becomes.
-/
namespace ViewBridge

open Template Template.Reading

/-! ## Calls of range -/

section
variable {fuel levels line : Nat} {m : Mark} {x : Expr} {args : List Template.Argument} {t l : Lexeme}
  {ls rest left : List Lexeme}

/-- Behind a comma, arguments are read as they are behind the start of the call. -/
theorem run_readArguments_comma (ht : t.token.isFailure = false) (hclose : t.token.isMark .closeParen = false)
    (line : Nat) : (readArguments (fuel + 1) levels false false).run (⟨.mark .comma, line⟩ :: t :: ls) =
      (readArguments (fuel + 1) levels true false).run (t :: ls) := by
  have hparen (ts : List Lexeme) :
      (accept (Token.isMark .closeParen)).run (⟨.mark .comma, line⟩ :: ts) = .ok (false, ⟨.mark .comma, line⟩ :: ts) :=
    run_accept_of_not rfl rfl ts
  rw [readArguments, run_bind_ok (hparen _), if_neg (by simp)]
  dsimp only
  rw [Bool.not_false, if_pos rfl, run_bind_ok (run_expect rfl rfl _), readArguments]
  conv => rhs; rw [run_bind_ok (run_accept_of_not ht hclose _), if_neg (by simp)]
  rfl

/-- An argument in front of the next one, or of the end of the call. -/
theorem run_readArguments_first (ht : t.token.isFailure = false) (hclose : t.token.isMark .closeParen = false)
    (hm : m ∈ Tier.followers .sum)
    (hexpr : (readExpr fuel levels).run (t :: ls) = .ok (x, ⟨.mark m, line⟩ :: rest))
    (hmore : (readArguments fuel levels false false).run (⟨.mark m, line⟩ :: rest) = .ok (args, left)) :
    (readArguments (fuel + 1) levels true false).run (t :: ls) = .ok ((none, x) :: args, left) := by
  have hassign : (Token.mark m).isMark .assign = false := by
    simp only [Tier.followers, List.mem_cons, List.not_mem_nil, or_false] at hm
    rcases hm with rfl | rfl <;> rfl
  rw [readArguments, run_bind_ok (run_accept_of_not ht hclose _), if_neg (by simp)]
  simp only [Bool.not_true, Bool.false_eq_true, if_false]
  rw [run_bind_ok (run_accept_of_not ht hclose _), if_neg (by simp),
    run_bind_ok hexpr, run_bind_ok (run_accept_of_not rfl hassign rest), Bool.and_false, if_neg (by simp),
    run_bind_ok hmore]
  rfl

/-- Tokens are read as an argument of a call, with fuel enough. -/
structure IsArgument (need levels : Nat) (ls : List Lexeme) (x : Expr) : Prop where
  head : ∃ t ts, ls = t :: ts ∧ t.token.isFailure = false ∧ t.token.isMark .closeParen = false
  reads : ∀ fuel m line rest, need ≤ fuel → m ∈ Tier.followers .sum →
    (readExpr fuel levels).run (ls ++ ⟨.mark m, line⟩ :: rest) = .ok (x, ⟨.mark m, line⟩ :: rest)

theorem IsArgument.mono {need need' : Nat} (h : IsArgument need levels ls x) (hneed : need ≤ need') :
    IsArgument need' levels ls x where
  head := h.head
  reads fuel m line rest hfuel := h.reads fuel m line rest (by omega)

theorem Arithmetic.isArgument (e : Arithmetic .sum) (h : e.levels ≤ levels) (line : Nat) :
    IsArgument (16 * (e.lexemes line).length + 17) (levels + 1) (e.lexemes line) (e.expr line) where
  head := by
    obtain ⟨t, ts, hlexemes, hfailure, -, hclose⟩ := e.exists_head_lexemes line
    exact ⟨t, ts, hlexemes, hfailure, hclose⟩
  reads fuel m line' rest hfuel hm := e.run_readExpr_lexemes hm h fuel line line' hfuel rest

/-- The tokens of a call of `range`, with those of its arguments and the lines that they end on. -/
def rangeCall (line line₁ line₂ : Nat) (ls₁ ls₂ : List Lexeme) : List Lexeme :=
  ⟨.name "range".toList, line⟩ :: ⟨.mark .openParen, line⟩ ::
    (ls₁ ++ ⟨.mark .comma, line₁⟩ :: (ls₂ ++ [⟨.mark .closeParen, line₂⟩]))

theorem run_readLevel_rangeCall {need₁ need₂ line₁ line₂ : Nat} {ls₁ ls₂ : List Lexeme} {x₁ x₂ : Expr}
    (h₁ : IsArgument need₁ (levels + 1) ls₁ x₁) (h₂ : IsArgument need₂ (levels + 1) ls₂ x₂)
    (hfuel : need₁ + need₂ + 16 ≤ fuel) (hl : l.token.endsExpr = true) :
    (readLevel fuel (levels + 1) .either).run (rangeCall line line₁ line₂ ls₁ ls₂ ++ l :: rest) =
      .ok (.call line "range".toList [x₁, x₂], l :: rest) := by
  obtain ⟨fuel, rfl⟩ : ∃ n, fuel = n + 13 := ⟨fuel - 13, by omega⟩
  have hend : (readArguments (fuel + 1) (levels + 1) false false).run (⟨.mark .closeParen, line₂⟩ :: l :: rest) =
      .ok ([], l :: rest) := by
    rw [readArguments, run_bind_ok (run_accept rfl rfl _)]
    rfl
  have hlastExpr := h₂.reads (fuel + 1) .closeParen line₂ (l :: rest) (by omega) (by decide)
  obtain ⟨t, ls, rfl, hfailure, hclose⟩ := h₂.head
  rw [List.cons_append] at hlastExpr
  have hsecond := run_readArguments_first hfailure hclose (by decide) hlastExpr hend
  rw [← run_readArguments_comma hfailure hclose line₁] at hsecond
  have hfirstExpr := h₁.reads (fuel + 1 + 1) .comma line₁ (t :: (ls ++ ⟨.mark .closeParen, line₂⟩ :: l :: rest))
    (by omega) (by decide)
  obtain ⟨t', ls', rfl, hfailure', hclose'⟩ := h₁.head
  rw [List.cons_append] at hfirstExpr
  have hargs := run_readArguments_first hfailure' hclose' (by decide) hfirstExpr hsecond
  have hrange : NamesVariable "range".toList := ⟨by decide, rfl⟩
  have hcall : (readLevel (fuel + 1 + 1 + 3) (levels + 1) .operand).run
      (⟨.name "range".toList, line⟩ :: ⟨.mark .openParen, line⟩ :: _) = _ := run_readLevel_call hrange hargs hl
  have hlevel := run_readLevel_of_operand rfl rfl hcall hl .either
  have hshape : rangeCall line line₁ line₂ (t' :: ls') (t :: ls) ++ l :: rest = ⟨.name "range".toList, line⟩ ::
      ⟨.mark .openParen, line⟩ :: (t' :: (ls' ++ ⟨.mark .comma, line₁⟩ :: t :: (ls ++
        ⟨.mark .closeParen, line₂⟩ :: l :: rest))) := by
    simp only [rangeCall, List.append_assoc, List.cons_append, List.nil_append]
  rw [hshape]
  exact hlevel

/-- The tokens of a call of `range`. -/
def rangeLexemes (line : Nat) (first last : Arithmetic .sum) : List Lexeme :=
  ⟨.name "range".toList, line⟩ :: ⟨.mark .openParen, line⟩ :: (first.lexemes line ++
    ⟨.mark .comma, line + lineBreaks first.target⟩ :: (last.lexemes (line + lineBreaks first.target) ++
      [⟨.mark .closeParen, line + lineBreaks first.target + lineBreaks last.target⟩]))

/-- The call that these tokens are read as. -/
def rangeExpr (line : Nat) (first last : Arithmetic .sum) : Expr :=
  .call line "range".toList [first.expr line, last.expr (line + lineBreaks first.target)]

theorem run_readLevel_range {first last : Arithmetic .sum} (hfirst : first.levels ≤ levels) (hlast : last.levels ≤ levels)
    (hfuel : 16 * (rangeLexemes line first last).length ≤ fuel) (hl : l.token.endsExpr = true) :
    (readLevel fuel (levels + 1) .either).run (rangeLexemes line first last ++ l :: rest) =
      .ok (rangeExpr line first last, l :: rest) := by
  have hlength : (rangeLexemes line first last).length =
      (first.lexemes line).length + (last.lexemes (line + lineBreaks first.target)).length + 4 := by
    simp only [rangeLexemes, List.length_cons, List.length_append, List.length_nil]
    omega
  exact run_readLevel_rangeCall (first.isArgument hfirst line) (last.isArgument hlast _) (by omega) hl

end

/-! ## Loops -/

/-- A name that a loop binds. -/
theorem Template.run_readTarget_name {v : Chars} (hv : Bindable v) (fuel line : Nat) (ts : List Lexeme) :
    (readTarget (fuel + 2)).run (⟨.name v, line⟩ :: ⟨.name "in".toList, line⟩ :: ts) =
      .ok (.name v, ⟨.name "in".toList, line⟩ :: ts) := by
  have hopen : ¬ ((Token.name v).isMark .closeParen || (Token.name v).isStop .output ||
      (Token.name v).isStop .statement || (Token.name v).isName "in") = true := by
    rw [Bool.not_eq_true]
    exact beq_eq_false_iff_ne.2 hv.2
  have htargets : (readTargets (fuel + 1)).run (⟨.name v, line⟩ :: ⟨.name "in".toList, line⟩ :: ts) =
      .ok (([.name v], false), ⟨.name "in".toList, line⟩ :: ts) := by
    rw [readTargets, run_bind_ok (run_peek rfl _), if_neg hopen, run_bind_ok (run_accept_of_not rfl rfl _)]
    simp only [Bool.false_eq_true, if_false]
    rw [run_bind_ok (run_map_ok (run_bindableName hv.1 line _) _), run_bind_ok (run_accept_of_not rfl rfl ts)]
    rfl
  rw [readTarget, run_bind_ok (run_peek rfl _), run_bind_ok htargets]
  rfl

/-- A loop whose body ends. -/
theorem Template.Yields.loop_over {need levels line line' : Nat} {inLoop : Bool} {ends : List String} {target : Target}
    {x : Expr} {names ls ts rest : List Lexeme} {body : List Stmt} {line'' : Nat}
    {result : Except RenderErrorKind (List Stmt × List Lexeme)}
    (htarget : ∀ fuel ts, (readTarget (fuel + 3)).run (names ++ ⟨.name "in".toList, line⟩ :: ts) =
      .ok (target, ⟨.name "in".toList, line⟩ :: ts))
    (hsource : ∀ fuel, need ≤ fuel → ∀ ts, (readLevel fuel levels .either).run (ls ++ ⟨.stop .statement, line'⟩ :: ts) =
      .ok (x, ⟨.stop .statement, line'⟩ :: ts))
    (hbody : Yields need levels true loopEnds ts
      (.ok (body, ⟨.name "endfor".toList, line''⟩ :: ⟨.stop .statement, line''⟩ :: rest)))
    (h : Yields need (levels + 1) inLoop ends rest result) (hends : "for" ∉ ends) :
    Yields (need + 6) (levels + 1) inLoop ends
      (⟨.start .statement, line⟩ :: ⟨.name "for".toList, line⟩ :: (names ++ ⟨.name "in".toList, line⟩ ::
        (ls ++ ⟨.stop .statement, line'⟩ :: ts))) (withFirst [.loop target x none body []] result) := by
  intro fuel hfuel
  obtain ⟨fuel, rfl⟩ : ∃ n, fuel = n + 3 + 1 + 1 + 1 := ⟨fuel - 6, by omega⟩
  have hstmt : (readStatement (fuel + 3 + 1 + 1) (levels + 1) inLoop).run (⟨.name "for".toList, line⟩ ::
      (names ++ ⟨.name "in".toList, line⟩ :: (ls ++ ⟨.stop .statement, line'⟩ :: ts))) =
        .ok (.loop target x none body [], ⟨.stop .statement, line''⟩ :: rest) := by
    rw [readStatement, run_bind_ok (run_anyName _ line _), if_pos rfl, readLoop, run_bind_ok (htarget fuel _),
      run_bind_ok (run_expect rfl rfl _), run_bind_ok (hsource _ (by omega) ts), run_bind_ok (run_accept_of_not rfl rfl _)]
    simp only [Bool.false_eq_true, if_false]
    have hbody' : (readBody (fuel + 3) levels true ["endfor", "else"]).run ts = _ := hbody _ (by omega)
    rw [pure_bind, run_bind_ok (run_tagEnd line' ts), run_bind_ok hbody', run_bind_ok (run_accept_of_not rfl rfl _)]
    rfl
  exact h.run_statement (by omega) rfl (any_isName_eq_false hends) hstmt

/-- A loop around a body of variables and loops, over what its tag has in front of the end. -/
theorem LoopTemplate.read_over {body : LoopTemplate} (hbody : body.WellFormed) (hdeep : body.nesting + 4 ≤ nestingLimit)
    {header : Chars} {target : Target} {x : Expr} {line : Nat} (names ls : List Lexeme)
    (hscan : ∀ s ms, Scans line s ms → Scans 1 (header ++ s) (⟨.start .statement, 1⟩ :: ⟨.name "for".toList, 1⟩ ::
      (names ++ ⟨.name "in".toList, 1⟩ :: (ls ++ ⟨.stop .statement, line⟩ :: ms))))
    (htarget : ∀ fuel ts, (readTarget (fuel + 3)).run (names ++ ⟨.name "in".toList, 1⟩ :: ts) =
      .ok (target, ⟨.name "in".toList, 1⟩ :: ts))
    (hsource : ∀ fuel, 16 * ls.length + 64 ≤ fuel → ∀ ts,
      (readLevel fuel (nestingLimit - 1) .either).run (ls ++ ⟨.stop .statement, line⟩ :: ts) =
        .ok (x, ⟨.stop .statement, line⟩ :: ts)) :
    read (header ++ (body.target 1 ++ Dialect.tag "endfor".toList)) =
      .ok [.loop target x none (body.stmts 1 line) []] := by
  have hend (line : Nat) (lead : Chars) (hlead : '\x7b' ∉ lead) : Scans line (lead ++ (Dialect.tag "endfor".toList ++ []))
      (dataTokens line lead ++ (Yields.endLexemes (line + lineBreaks lead) ++ [])) :=
    LoopTemplate.scans_end hlead (Scans.text List.not_mem_nil _)
  have hwhole := hscan _ _ (LoopTemplate.scans_target hbody (Dialect.tag "endfor".toList ++ [])
    (fun line => Yields.endLexemes line ++ []) hend 1 line)
  rw [List.append_nil, List.append_nil] at hwhole
  have htokens := tokens_of_scans (by rw [← List.append_assoc]; exact Dialect.getLast?_append_tag ..) hwhole
  -- what the tokens are read as
  have hended := (Yields.ended 149 (line + body.breaks) true []).mono (show 1 ≤ 16 by omega)
  have hinner := LoopTemplate.yields_lexemes hbody (by unfold nestingLimit at hdeep; omega) (by omega) (by decide) hended 1
    line
  simp only [withFirst, Except.map, List.append_nil] at hinner
  have hloop := Yields.loop_over htarget (fun fuel (hfuel : 16 * ls.length + 64 + (body.lexemes 1 line).length ≤ fuel) =>
      hsource fuel (by omega)) (hinner.mono (by omega)) ((Yields.nil 150 false []).mono (by omega)) List.not_mem_nil
  rw [← htokens] at hloop
  refine (read_of_yields hloop ?_).trans rfl
  rw [htokens]
  simp only [List.length_append, List.length_cons]
  omega

/-! ## Tags -/

/-- A call of `range` in a tag, with what stands behind it. -/
theorem Template.ScansTag.rangeCall {kind : TagKind} {line : Nat} {s₁ s₂ s : Chars} {ls₁ ls₂ ls : List Lexeme}
    (h₁ : SpellsInside line s₁ ls₁) (hlength₁ : ls₁.length ≤ s₁.length)
    (h₂ : SpellsInside (line + lineBreaks s₁) s₂ ls₂) (hlength₂ : ls₂.length ≤ s₂.length)
    (h : ScansTag kind (line + lineBreaks s₁ + lineBreaks s₂) s ls) :
    ScansTag kind line ("range(".toList ++ (s₁ ++ (", ".toList ++ (s₂ ++ ')' :: s))))
      (rangeCall line (line + lineBreaks s₁) (line + lineBreaks s₁ + lineBreaks s₂) ls₁ ls₂ ++ ls) := by
  intro fuel hfuel
  have hrange : "range(".toList.length = 6 := rfl
  have hcommaLength : ", ".toList.length = 2 := rfl
  simp only [List.length_append, List.length_cons, hrange, hcommaLength] at hfuel
  obtain ⟨fuel, rfl⟩ : ∃ n, fuel = n + ls₂.length + ls₁.length + 4 := ⟨fuel - (ls₂.length + ls₁.length + 4), by omega⟩
  have hword : ("range".toList : Chars).head?.any Text.isNameStart = true ∧ "range".toList.all Text.isNameChar = true := by
    decide
  have hopen (s : Chars) : readToken ('(' :: s) = (.mark .openParen, s) := by cases s <;> rfl
  have hcomma (s : Chars) : readToken (',' :: s) = (.mark .comma, s) := by cases s <;> rfl
  have hclose (s : Chars) : readToken (')' :: s) = (.mark .closeParen, s) := by cases s <;> rfl
  have hdeeper : (0 : Int) + Mark.openParen.nesting = 1 := rfl
  have hsame : (1 : Int) + Mark.comma.nesting = 1 := rfl
  have hback : (1 : Int) + Mark.closeParen.nesting = 0 := rfl
  have hfuel₁ (a b : Nat) : fuel + b + a + 4 = fuel + b + 1 + 1 + a + 1 + 1 := by omega
  have hfuel₂ (b : Nat) : fuel + b + 1 = fuel + 1 + b := by omega
  have hbehind (c : Char) (hc : Text.isNameChar c = false ∧ c ≠ '>' ∧ c ≠ '.') (s : Chars) : Behind (c :: s) := by
    rintro _ ⟨⟩
    exact hc
  have hshape : "range(".toList ++ (s₁ ++ (", ".toList ++ (s₂ ++ ')' :: s))) =
      "range".toList ++ '(' :: (s₁ ++ ',' :: ' ' :: (s₂ ++ ')' :: s)) := rfl
  rw [hshape, hfuel₁, scanTag_name _ 0 hword.1 hword.2 rfl, scanTag_mark _ 0 (hopen _) rfl (by decide) (by decide),
    hdeeper, h₁ kind _ 1 (by decide) _ (by simp) (hbehind ',' (by decide) _),
    scanTag_inside (by decide) hsame (hcomma _) rfl, scanTag_blank, hfuel₂,
    h₂ kind _ 1 (by decide) _ (by simp) (hbehind ')' (by decide) _),
    scanTag_inside (by decide) hback (hclose _) rfl, h fuel (by omega)]
  simp only [ViewBridge.rangeCall, List.append_assoc, List.cons_append, List.nil_append]

/-- The arguments of a call in a tag, with what stands behind them. -/
theorem Template.ScansTag.arguments {kind : TagKind} {line : Nat} (first last : Arithmetic .sum)
    (hfirst : ∀ n ∈ first.numbers, n < Nat.pow 2 128) (hlast : ∀ n ∈ last.numbers, n < Nat.pow 2 128)
    {s : Chars} {ls : List Lexeme} (h : ScansTag kind (line + lineBreaks first.target + lineBreaks last.target) s ls) :
    ScansTag kind line ("range(".toList ++ (first.target ++ (", ".toList ++ (last.target ++ ')' :: s))))
      (rangeLexemes line first last ++ ls) :=
  .rangeCall (first.spellsInside_target hfirst line) (first.length_lexemes_le line) (last.spellsInside_target hlast _)
    (last.length_lexemes_le _) h

/-! ## Counting loops -/

namespace CountingHeader

/-- The first number as an expression. -/
def start (h : CountingHeader) : Arithmetic .sum := .ofProduct (.ofOperand (.ofSigned (.number h.first)))

variable {h : CountingHeader} {d : Dialect}

theorem bindable_var (h : CountingHeader) : Bindable h.var.1 := by
  have hwords : ∀ word ∈ reservedNames, word ∈ LoopTemplate.reserved ∨ word = "self" := by decide
  refine ⟨List.any_eq_false.2 fun word hword => ?_, fun hin => h.var.2.2 (by rw [hin]; decide)⟩
  rw [beq_iff_eq]
  rcases hwords word hword with hreserved | rfl
  · exact (h.var.2.1.2 word hreserved).symm
  · exact fun hself => h.var.2.2 (by rw [← hself]; decide)

/-- The tokens of the tag that a header becomes. -/
def tagLexemes (h : CountingHeader) (d : Dialect) : List Lexeme :=
  ⟨.start .statement, 1⟩ :: ⟨.name "for".toList, 1⟩ :: ⟨.name h.var.1, 1⟩ :: ⟨.name "in".toList, 1⟩ ::
    (rangeLexemes 1 h.start (h.rangeEnd d) ++ [⟨.stop .statement, 1 + lineBreaks (h.rangeEnd d).target⟩])

theorem scans_target (hfirst : h.first.value < Nat.pow 2 128)
    (hnumbers : ∀ n ∈ (h.rangeEnd d).numbers, n < Nat.pow 2 128) {s : Chars} {ls : List Lexeme}
    (hs : Scans (1 + lineBreaks (h.rangeEnd d).target) s ls) : Scans 1 (h.target d ++ s) (h.tagLexemes d ++ ls) := by
  have hbreaks : lineBreaks h.start.target = 0 :=
    List.count_eq_zero.2 fun hbreak => absurd (h.first.2.2 _ hbreak) (by decide)
  have hstop : ScansTag .statement (1 + lineBreaks h.start.target + lineBreaks (h.rangeEnd d).target)
      (' ' :: (TagKind.statement.closing ++ s)) (⟨.stop .statement, 1 + lineBreaks (h.rangeEnd d).target⟩ :: ls) := by
    rw [hbreaks, Nat.add_zero]
    exact .blank (.stop hs)
  have hcall := hstop.arguments h.start (h.rangeEnd d) (List.forall_mem_singleton.2 hfirst) hnumbers
  have hshape : h.target d ++ s = [] ++ '\x7b' :: TagKind.statement.mark :: ' ' :: ("for".toList ++ ' ' ::
      (h.var.1 ++ ' ' :: ("in".toList ++ ' ' :: ("range(".toList ++ (h.start.target ++ (", ".toList ++
        ((h.rangeEnd d).target ++ ')' :: ' ' :: (TagKind.statement.closing ++ s)))))))) := by
    simp [target, start, Arithmetic.target, Arithmetic.written, Dialect.tag, TagKind.mark, TagKind.closing]
  have hvar := h.var.2.1.1
  have htokens : h.tagLexemes d ++ ls = dataTokens 1 [] ++ ⟨.start .statement, 1 + lineBreaks []⟩ ::
      ⟨.name "for".toList, 1⟩ :: ⟨.name h.var.1, 1⟩ :: ⟨.name "in".toList, 1⟩ ::
        (rangeLexemes 1 h.start (h.rangeEnd d) ++ ⟨.stop .statement, 1 + lineBreaks (h.rangeEnd d).target⟩ :: ls) := by
    simp only [tagLexemes, List.cons_append, List.append_assoc, List.nil_append]
    rfl
  rw [hshape, htokens]
  exact Scans.tag .statement (by decide) (fun _ => rfl) (.forName hvar.1 (List.all_eq_true.2 hvar.2) hcall)

/-- A loop that a counting loop becomes, around a body. -/
def loopTarget (h : CountingHeader) (d : Dialect) (body : LoopTemplate) : Chars :=
  h.target d ++ (body.target 1 ++ Dialect.tag "endfor".toList)

/-- The line that the tag of a loop ends on. -/
def endLine (h : CountingHeader) (d : Dialect) : Nat := 1 + lineBreaks (h.rangeEnd d).target

/-- The statement that a counting loop becomes. -/
def stmt (h : CountingHeader) (d : Dialect) (body : LoopTemplate) : Stmt :=
  .loop (.name h.var.1) (rangeExpr 1 h.start (h.rangeEnd d)) none (body.stmts 1 (h.endLine d)) []

/-- The loop that a counting loop becomes is read as one over a range. -/
theorem read_loopTarget (hfirst : h.first.value < Nat.pow 2 128)
    (hnumbers : ∀ n ∈ (h.rangeEnd d).numbers, n < Nat.pow 2 128) (hlevels : (h.rangeEnd d).levels + 2 ≤ nestingLimit)
    {body : LoopTemplate} (hbody : body.WellFormed) (hdeep : body.nesting + 4 ≤ nestingLimit) :
    read (h.loopTarget d body) = .ok [h.stmt d body] := by
  have hlast : (h.rangeEnd d).levels ≤ 148 := by unfold nestingLimit at hlevels; omega
  have hstart : h.start.levels ≤ 148 := show 1 ≤ 148 by decide
  refine LoopTemplate.read_over hbody hdeep [⟨.name h.var.1, 1⟩] (rangeLexemes 1 h.start (h.rangeEnd d))
    (fun s ms hs => ?_) (fun fuel ts => run_readTarget_name h.bindable_var (fuel + 1) 1 ts)
    fun fuel hfuel ts => run_readLevel_range hstart hlast (by omega) rfl
  have hscan := scans_target hfirst hnumbers hs
  simpa only [tagLexemes, endLine, List.cons_append, List.append_assoc, List.nil_append] using hscan

end CountingHeader
end ViewBridge
