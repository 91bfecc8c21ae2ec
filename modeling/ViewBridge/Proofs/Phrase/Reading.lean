import ViewBridge.Proofs.Phrase.LastOperand
import ViewBridge.Proofs.Phrase.Scanning
/-!
# Reading phrases

A phrase that is an expression in a tag is made of tokens that are read as that expression, wherever else they
stand.

Results:
* `exists_phrase_output`, `exists_phrase_set`: the tokens of an expression in an output tag and in an assignment.
* `IsPhrase.read_filtered`: an output tag with a filter behind the expression.
-/
namespace ViewBridge.Template

open Reading
open Translator (IsIdentifier)

/-- How much fuel is left for an expression in a tag, apart from that for its tokens: in an output tag, or behind the
sign of an assignment. -/
def TagKind.spare : TagKind → Nat
  | output => 63
  | statement => 109

/-- How deep an expression in a tag may be nested. -/
def TagKind.levels : TagKind → Nat
  | output => nestingLimit
  | statement => nestingLimit - 1

/-- A text is an expression in a tag: its tokens, and the line it ends on. -/
structure IsPhrase (kind : TagKind) (s : Chars) (e : Expr) (ls : List Lexeme) (line : Nat) : Prop where
  length_le : ls.length ≤ s.length
  spells : Spells 0 1 s ls 0 line
  reads : (readExpr (16 * ls.length + kind.spare) kind.levels).run (ls ++ [⟨.stop kind, line⟩]) =
    .ok (e, [⟨.stop kind, line⟩])

/-- Tokens in a tag that are one operand altogether: a literal, a name or a bracket, with all that belongs to it. -/
def IsOperand (kind : TagKind) (ls : List Lexeme) (line : Nat) (e : Expr) : Prop :=
  ∃ fuel t rest, ls = t :: rest ∧ t.token.isName "not" = false ∧
    (readLevel fuel (kind.levels - 1) .operand).run (ls ++ [⟨.stop kind, line⟩]) = .ok (e, [⟨.stop kind, line⟩])

theorem isFailure_of_run_operand {fuel levels : Nat} {t : Lexeme} {ts : List Lexeme} {r : Expr × List Lexeme}
    (h : (readLevel fuel levels .operand).run (t :: ts) = .ok r) : t.token.isFailure = false := by
  cases fuel with
  | zero =>
    rw [readLevel] at h
    cases h
  | succ fuel =>
    rw [readLevel] at h
    obtain ⟨_, _, hsigned, -⟩ := eq_of_run_bind h
    cases fuel with
    | zero =>
      rw [readSigned] at hsigned
      cases hsigned
    | succ fuel =>
      rw [readSigned] at hsigned
      obtain ⟨_, _, haccept, -⟩ := eq_of_run_bind hsigned
      exact isFailure_of_run_accept haccept

theorem eq_of_run_expect_stop {kind : TagKind} {ts : List Lexeme} {r : Unit × List Lexeme}
    (h : (expect (Token.isStop kind)).run ts = .ok r) : ∃ line, ts = ⟨.stop kind, line⟩ :: r.2 := by
  obtain ⟨b, _, haccept, hexpect⟩ := eq_of_run_bind h
  obtain ⟨⟨token, line⟩, rest, rfl, ⟨rfl, hl, rfl⟩ | ⟨rfl, rfl⟩⟩ := eq_of_run_accept haccept
  · obtain ⟨-, rfl⟩ := Prod.mk.inj (Except.ok.inj hexpect)
    cases token with
    | stop kind' =>
      obtain rfl : kind = kind' := beq_iff_eq.1 hl
      exact ⟨line, rfl⟩
    | _ => cases hl
  · cases hexpect

/-- Nothing is left of what is read as no statement. -/
theorem eq_nil_of_readBody {fuel levels : Nat} {inLoop : Bool} {ts ts' : List Lexeme}
    (h : (readBody fuel levels inLoop []).run ts = .ok ([], ts')) : ts = [] := by
  cases ts with
  | nil => rfl
  | cons l ts =>
    have hcons {fuel : Nat} {stmt : Stmt} {us : List Lexeme} : (do
        let rest ← readBody fuel levels inLoop []
        pure (stmt :: rest) : Reading (List Stmt)).run us ≠ .ok ([], ts') := by
      intro h
      obtain ⟨rest, mid, -, hmore⟩ := eq_of_run_bind h
      cases hmore
    cases fuel with
    | zero =>
      rw [readBody] at h
      cases h
    | succ fuel =>
      rw [readBody] at h
      obtain ⟨_, _, hget, hbody⟩ := eq_of_run_bind h
      obtain ⟨rfl, rfl⟩ := Prod.mk.inj (Except.ok.inj hget)
      obtain ⟨l', mid, -, hbody⟩ := eq_of_run_bind hbody
      obtain ⟨token, line⟩ := l'
      cases token with
      | data s => exact absurd hbody hcons
      | start kind =>
        cases kind with
        | output =>
          obtain ⟨e, mid, -, hbody⟩ := eq_of_run_bind hbody
          obtain ⟨-, mid, -, hbody⟩ := eq_of_run_bind hbody
          exact absurd hbody hcons
        | statement =>
          obtain ⟨t, mid, -, hbody⟩ := eq_of_run_bind hbody
          obtain ⟨stmt, mid, -, hbody⟩ := eq_of_run_bind hbody
          obtain ⟨-, mid, -, hbody⟩ := eq_of_run_bind hbody
          exact absurd hbody hcons
      | _ => cases hbody

/-- An output tag alone holds an expression up to its end. -/
theorem readExpr_of_readBody_output {fuel levels line : Nat} {ts ts' : List Lexeme} {e : Expr}
    (h : (readBody (fuel + 1) levels false []).run (⟨.start .output, line⟩ :: ts) = .ok ([.output e], ts')) :
    ∃ line', (readExpr fuel levels).run ts = .ok (e, [⟨.stop .output, line'⟩]) := by
  rw [run_readBody_output] at h
  obtain ⟨e', mid, hexpr, hmore⟩ := eq_of_run_bind h
  obtain ⟨_, behind, hstop, hmore⟩ := eq_of_run_bind hmore
  obtain ⟨rest, _, hrest, hmore⟩ := eq_of_run_bind hmore
  obtain ⟨hstmts, -⟩ := Prod.mk.inj (Except.ok.inj hmore)
  obtain ⟨he, rfl⟩ := List.cons.inj hstmts
  obtain rfl := Stmt.output.inj he
  obtain rfl := eq_nil_of_readBody hrest
  obtain ⟨line', rfl⟩ := eq_of_run_expect_stop hstop
  exact ⟨line', hexpr⟩

/-- A statement tag alone with an assignment holds an expression from the sign of the assignment up to its end. -/
theorem readExpr_of_readBody_set {fuel levels line : Nat} {name : Chars} {ts ts' : List Lexeme} {e : Expr}
    (hname : (reservedNames.any fun r => r.toList == name) = false)
    (h : (readBody (fuel + 4) (levels + 1) false []).run (⟨.start .statement, line⟩ :: ⟨.name "set".toList, line⟩ ::
      ⟨.name name, line⟩ :: ⟨.mark .assign, line⟩ :: ts) = .ok ([.assign (.name name) e], ts')) :
    ∃ line', (readExpr (fuel + 1) levels).run ts = .ok (e, [⟨.stop .statement, line'⟩]) := by
  rw [Yields.run_readBody_statement rfl rfl] at h
  obtain ⟨stmt, mid, hstmt, hmore⟩ := eq_of_run_bind h
  obtain ⟨_, behind, hstop, hmore⟩ := eq_of_run_bind hmore
  obtain ⟨rest, _, hrest, hmore⟩ := eq_of_run_bind hmore
  obtain ⟨hstmts, -⟩ := Prod.mk.inj (Except.ok.inj hmore)
  obtain ⟨rfl, rfl⟩ := List.cons.inj hstmts
  obtain rfl := eq_nil_of_readBody hrest
  obtain ⟨line', rfl⟩ := eq_of_run_expect_stop hstop
  rw [run_readStatement_set hname] at hstmt
  refine ⟨line', ?_⟩
  rw [← bind_pure_comp] at hstmt
  obtain ⟨e', mid, hexpr, hmore⟩ := eq_of_run_bind hstmt
  obtain ⟨he, rfl⟩ := Prod.mk.inj (Except.ok.inj hmore)
  obtain ⟨-, rfl⟩ := Stmt.assign.inj he
  exact hexpr

/-- What is read of a template that starts with a token. -/
theorem read_eq {source : Chars} {l : Lexeme} {ls : List Lexeme} (htokens : tokens source = l :: ls) :
    read source = ((readBody (16 * ls.length + 48) nestingLimit false []).run (l :: ls)).map Prod.fst := by
  rw [read, htokens, List.length_cons]
  rfl

/-- An output tag alone with an expression up to its end. -/
theorem read_output_of_run {source : Chars} {ls : List Lexeme} {line : Nat} {e : Expr}
    (htokens : tokens source = ⟨.start .output, 1⟩ :: ls)
    (hrun : (readExpr (16 * ls.length + 47) nestingLimit).run ls = .ok (e, [⟨.stop .output, line⟩])) :
    read source = .ok [.output e] := by
  have hnil : (readBody (16 * ls.length + 47) nestingLimit false []).run [] = .ok ([], []) :=
    Yields.nil nestingLimit false [] _ (by omega)
  rw [read_eq htokens, run_readBody_output, run_bind_ok hrun, run_bind_ok (run_expect rfl rfl []), run_bind_ok hnil]
  rfl

/-- The reading of all tokens of a template. -/
theorem exists_run_of_read {source : Chars} {l : Lexeme} {ls : List Lexeme} {stmts : List Stmt}
    (htokens : tokens source = l :: ls) (h : read source = .ok stmts) :
    ∃ ts', (readBody (16 * ls.length + 48) nestingLimit false []).run (l :: ls) = .ok (stmts, ts') := by
  rw [read_eq htokens] at h
  cases hbody : (readBody (16 * ls.length + 48) nestingLimit false []).run (l :: ls) with
  | error kind =>
    rw [hbody] at h
    cases h
  | ok r =>
    rw [hbody] at h
    obtain rfl : r.1 = stmts := Except.ok.inj h
    exact ⟨r.2, rfl⟩

/-! ## The tokens of a phrase -/

/-- The tokens of a text on the first line of a template, which close the brackets that they open and no others, and the
line that the text ends on. -/
structure IsClosed (s : Chars) (ls : List Lexeme) (line : Nat) : Prop where
  lexes : Lexes 1 s ls line
  nested : Nested 0 ls
  depth : depthAfter 0 ls = 0

theorem IsClosed.spells {s : Chars} {ls : List Lexeme} {line : Nat} (h : IsClosed s ls line) : Spells 0 1 s ls 0 line := by
  intro kind fuel d r hd
  rw [h.lexes.scanTag h.nested kind fuel (.inl hd) r, h.depth]

/-- What is read as an expression up to the end of its tag is all of a text that closes its brackets. -/
theorem exists_closed {kind : TagKind} {s : Chars} {fuel fuel' levels line : Nat} {e : Expr} (hfuel : s.length + 3 < fuel)
    (h : (readExpr fuel' levels).run (scanTag fuel kind 0 1 (s ++ ' ' :: kind.closing)) = .ok (e, [⟨.stop kind, line⟩])) :
    ∃ ls, IsClosed s ls line ∧ scanTag fuel kind 0 1 (s ++ ' ' :: kind.closing) = ls ++ [⟨.stop kind, line⟩] := by
  -- nothing is read past the end of a tag or past a failure
  have hend {ls rest : List Lexeme} {l : Lexeme} (hl : Barred (l :: rest))
      (h : (readExpr fuel' levels).run (ls ++ l :: rest) = .ok (e, [⟨.stop kind, line⟩])) :
      l = ⟨.stop kind, line⟩ ∧ rest = [] := by
    obtain ⟨us, -, hus⟩ := exists_append_of_readExpr hl h
    cases us with
    | nil =>
      obtain ⟨hl, hrest⟩ := List.cons.inj hus
      exact ⟨hl.symm, hrest.symm⟩
    | cons u us => simp at hus
  rcases lexes_or_ends kind s hfuel 0 1 with ⟨ls, l, rest, hscan, hl⟩ | ⟨ls, line', fuel'', hlexes, hscan⟩
  · rw [hscan] at h
    exfalso
    obtain ⟨token, line'⟩ := l
    rcases hl with hfailure | ⟨⟨kind', rfl⟩, hrest⟩
    · cases token with
      | failure cause =>
        obtain ⟨hl, -⟩ := hend (fun l hl => .inr ⟨cause, by rw [← Option.some.inj hl]⟩) h
        cases hl
      | _ => cases hfailure
    · exact hrest (hend (barred_stop kind' line' rest) h).2
  · obtain ⟨ms, t, hclosing, hzero, hbrackets⟩ := scanTag_closing kind (depthAfter 0 ls) line'
    rw [hclosing] at hscan
    by_cases hdepth : depthAfter 0 ls = 0
    · obtain ⟨rfl, rfl⟩ := hzero hdepth
      rw [List.nil_append] at hscan
      rw [hscan] at h
      obtain ⟨hl, -⟩ := hend (barred_stop kind line' []) h
      obtain rfl : line' = line := congrArg Lexeme.line hl
      have hturns := (evenReading true fuel').expr levels _ h 0
      exact ⟨ls, ⟨hlexes, nested_of_behind hlexes.ne_stop (hturns.trans rfl), hdepth⟩, hscan⟩
    · -- the end of the tag is taken for marks, and the tokens end with one
      obtain rfl := hbrackets hdepth
      rw [hscan, ← List.append_assoc, ← List.append_nil (ls ++ ms ++ [_])] at h
      have hnothing : Barred [] := fun l hl => nomatch hl
      obtain ⟨us, ⟨vs, hvs⟩, hus⟩ := exists_append_of_readExpr hnothing h
      rw [List.append_nil] at hus
      have hlast := congrArg List.getLast? hvs
      rw [← hus, List.getLast?_append, List.getLast?_append] at hlast
      cases hlast

/-- The tokens of an output tag. -/
theorem tokens_output (s : Chars) : ∃ fuel, s.length + 3 < fuel ∧ tokens (Dialect.output s) =
    ⟨.start .output, 1⟩ :: scanTag fuel .output 0 1 (s ++ ' ' :: TagKind.output.closing) := by
  have hshape : Dialect.output s = '\x7b' :: '\x7b' :: ' ' :: (s ++ ' ' :: TagKind.output.closing) := by
    simp [Dialect.output, TagKind.closing]
  have hlength : (s ++ ' ' :: TagKind.output.closing).length = s.length + 3 := by simp [TagKind.closing]
  refine ⟨2 * (Dialect.output s).length + 1, ?_, ?_⟩
  · rw [hshape]
    simp only [List.length_cons, hlength]
    omega
  · rw [tokens, withoutLastBreak_output]
    exact (congrArg _ hshape).trans (scanText_output ..)

/-- The tokens of an assignment. -/
theorem tokens_set {name : Chars} (hname : IsIdentifier name) (s : Chars) : ∃ fuel, s.length + 3 < fuel ∧
    tokens (Dialect.tag ("set ".toList ++ name ++ " = ".toList ++ s)) = ⟨.start .statement, 1⟩ ::
      ⟨.name "set".toList, 1⟩ :: ⟨.name name, 1⟩ :: ⟨.mark .assign, 1⟩ ::
        scanTag fuel .statement 0 1 (s ++ ' ' :: TagKind.statement.closing) := by
  have hshape : Dialect.tag ("set ".toList ++ name ++ " = ".toList ++ s) = '\x7b' :: '%' :: ' ' ::
      ("set".toList ++ ' ' :: (name ++ ' ' :: '=' :: ' ' :: (s ++ ' ' :: TagKind.statement.closing))) := by
    simp [Dialect.tag, TagKind.closing]
  have hlength : (s ++ ' ' :: TagKind.statement.closing).length = s.length + 3 := by simp [TagKind.closing]
  have hset : ("set".toList : Chars).head?.any Text.isNameStart = true ∧ "set".toList.all Text.isNameChar = true := by
    decide
  have hassign (s : Chars) : readToken ('=' :: ' ' :: s) = (.mark .assign, ' ' :: s) := rfl
  have htag (fuel : Nat) (s : Chars) : scanText (fuel + 1) false 1 ('\x7b' :: '%' :: ' ' :: ("set".toList ++ ' ' :: s)) =
      ⟨.start .statement, 1⟩ :: scanTag fuel .statement 0 1 ("set".toList ++ ' ' :: s) := by
    rw [← scanTag_blank]
    rfl
  refine ⟨2 * (Dialect.tag ("set ".toList ++ name ++ " = ".toList ++ s)).length - 2, ?_, ?_⟩
  · rw [hshape]
    simp only [List.length_cons, List.length_append, hlength]
    omega
  · have hfuel : 2 * (Dialect.tag ("set ".toList ++ name ++ " = ".toList ++ s)).length + 2 =
        2 * (Dialect.tag ("set ".toList ++ name ++ " = ".toList ++ s)).length - 2 + 1 + 1 + 1 + 1 := by
      rw [hshape]
      simp only [List.length_cons]
      omega
    rw [tokens, withoutLastBreak_of_getLast? (Dialect.getLast?_tag _), hfuel]
    generalize 2 * (Dialect.tag _).length - 2 = fuel
    rw [hshape, htag, scanTag_name _ 0 hset.1 hset.2 rfl, scanTag_blank, scanTag_name _ 0 hname.1
      (List.all_eq_true.2 hname.2) rfl, scanTag_blank, scanTag_mark _ 0 (hassign _) rfl (by decide) (by decide),
      scanTag_blank]
    rfl

/-- A text in an output tag alone is an expression, with so many levels of nesting to spare. -/
def IsExpression (spare : Nat) (s : Chars) (e : Expr) : Prop :=
  ∃ rest, (readBody (16 * (tokens (Dialect.output s)).length + 32) (nestingLimit - spare) false []).run
    (tokens (Dialect.output s)) = .ok ([.output e], rest)

theorem isExpression_zero_iff {s : Chars} {e : Expr} :
    IsExpression 0 s e ↔ read (Dialect.output s) = .ok [.output e] := by
  rw [read]
  constructor
  · rintro ⟨rest, h⟩
    rw [Nat.sub_zero] at h
    rw [h]
    rfl
  · intro h
    cases hrun : (readBody (16 * (tokens (Dialect.output s)).length + 32) nestingLimit false []).run
        (tokens (Dialect.output s)) with
    | error kind =>
      rw [hrun] at h
      cases h
    | ok r =>
      rw [hrun] at h
      exact ⟨r.2, hrun.trans (congrArg _ (Prod.ext (Except.ok.inj h) rfl))⟩

/-- An expression is read of the tokens of its text, up to the end of the tag. -/
theorem IsExpression.exists_closed {spare : Nat} {s : Chars} {e : Expr} (h : IsExpression spare s e) :
    ∃ ls line, IsClosed s ls line ∧ (readExpr (16 * ls.length + 63) (nestingLimit - spare)).run
      (ls ++ [⟨.stop .output, line⟩]) = .ok (e, [⟨.stop .output, line⟩]) := by
  obtain ⟨ts', hbody⟩ := h
  obtain ⟨fuel, hfuel, htokens⟩ := tokens_output s
  rw [htokens] at hbody
  obtain ⟨line, hrun⟩ := readExpr_of_readBody_output hbody
  obtain ⟨ls, hclosed, hscan⟩ := Template.exists_closed hfuel hrun
  rw [hscan, List.length_cons, List.length_append, List.length_singleton] at hrun
  exact ⟨ls, line, hclosed, hrun⟩

/-- A phrase that an output tag holds as an expression. -/
theorem exists_phrase_output {s : Chars} {e : Expr} (h : read (Dialect.output s) = .ok [.output e]) :
    ∃ ls line, IsPhrase .output s e ls line := by
  obtain ⟨ls, line, hclosed, hrun⟩ := (isExpression_zero_iff.2 h).exists_closed
  exact ⟨ls, line, hclosed.lexes.length_le, hclosed.spells, hrun⟩

/-- A phrase that a name is set to. -/
theorem exists_phrase_set {s name : Chars} {e : Expr} (hname : (reservedNames.any fun r => r.toList == name) = false)
    (hid : IsIdentifier name)
    (h : read (Dialect.tag ("set ".toList ++ name ++ " = ".toList ++ s)) = .ok [.assign (.name name) e]) :
    ∃ ls line, IsPhrase .statement s e ls line := by
  obtain ⟨fuel, hfuel, htokens⟩ := tokens_set hid s
  obtain ⟨ts', hbody⟩ := exists_run_of_read htokens h
  obtain ⟨line, hrun⟩ := readExpr_of_readBody_set hname hbody
  obtain ⟨ls, hclosed, hscan⟩ := exists_closed hfuel hrun
  simp only [hscan, List.length_append, List.length_cons, List.length_nil] at hrun
  exact ⟨ls, line, hclosed.lexes.length_le, hclosed.spells, hrun⟩

/-! ## A filter behind a phrase -/

/-- A phrase in a tag, in front of what is known. -/
theorem ScansTag.phrase {kind : TagKind} {line line' : Nat} {s r : Chars} {d : Char} {ls ms : List Lexeme}
    (hspells : Spells 0 line s ls 0 line') (hlength : ls.length ≤ s.length) (hd : IsSeam d)
    (h : ScansTag kind line' (d :: r) ms) : ScansTag kind line (s ++ d :: r) (ls ++ ms) := by
  intro fuel hfuel
  rw [List.length_append] at hfuel
  obtain ⟨fuel, rfl⟩ : ∃ m, fuel = m + 1 + ls.length := ⟨fuel - ls.length - 1, by omega⟩
  rw [hspells kind fuel d r hd, h (fuel + 1) (by omega)]

namespace IsPhrase

variable {s filter : Chars} {e : Expr} {ls : List Lexeme} {line : Nat}

/-- The tokens of a phrase with the end of its tag. -/
theorem scansTag {kind : TagKind} (h : IsPhrase kind s e ls line) :
    ScansTag kind 1 (s ++ ' ' :: kind.closing) (ls ++ [⟨.stop kind, line⟩]) := by
  have hstop := (@ScansTag.stop kind _ _ _ (Scans.text List.not_mem_nil line)).blank
  rw [List.append_nil] at hstop
  exact .phrase h.spells h.length_le (.inl rfl) hstop

theorem tokens_filtered (h : IsPhrase .output s e ls line) (hfilter : IsIdentifier filter) :
    tokens (Dialect.output (s ++ '|' :: filter)) = ⟨.start .output, 1⟩ ::
      (ls ++ [⟨.mark .bar, line⟩, ⟨.name filter, line⟩, ⟨.stop .output, line⟩]) := by
  have hend : ScansTag .output line (' ' :: (TagKind.output.closing ++ [])) [⟨.stop .output, line⟩] :=
    (ScansTag.stop (Scans.text List.not_mem_nil line)).blank
  have hname := hend.name hfilter.1 (List.all_eq_true.2 hfilter.2) rfl
  have hread (r : Chars) : readToken ('|' :: r) = (.mark .bar, r) := by cases r <;> rfl
  have hbar := hname.mark (hread _) rfl rfl (by decide) (by decide)
  have htag := @Scans.tag _ _ _ .output [] List.not_mem_nil (fun hkind => by cases hkind)
    (hbar.phrase h.spells h.length_le (.inr rfl)).blank
  have hshape : Dialect.output (s ++ '|' :: filter) = '\x7b' :: '\x7b' :: ' ' ::
      (s ++ '|' :: (filter ++ ' ' :: (TagKind.output.closing ++ []))) := by
    simp [Dialect.output, TagKind.closing]
  refine tokens_of_scans (Dialect.getLast?_output _) ?_
  rw [hshape]
  exact htag

/-- Where all of a phrase is an operand, a filter behind it is applied to all of it. -/
theorem run_filtered_operand (hop : IsOperand .output ls line e) (filter : Chars) {fuel : Nat} {e' : Expr}
    (h : (readExpr fuel nestingLimit).run (ls ++ [⟨.mark .bar, line⟩, ⟨.name filter, line⟩] ++ [⟨.stop .output, line⟩]) =
      .ok (e', [⟨.stop .output, line⟩])) : e' = .filter e filter [] [] := by
  obtain ⟨fuel', t, rest, rfl, hnot, hoperand⟩ := hop
  have hx := exchange_filter (barred_stop .output line []) filter .output line line []
  have hfiltered := hx.readOperand hoperand (Nat.lt_succ_self fuel')
  have hfailure : t.token.isFailure = false := isFailure_of_run_operand hoperand
  have hexpr : (readExpr (fuel' + 11) nestingLimit).run
      (t :: (rest ++ [⟨.mark .bar, line⟩, ⟨.name filter, line⟩, ⟨.stop .output, line⟩])) =
        .ok (.filter e filter [] [], [⟨.stop .output, line⟩]) :=
    run_readExpr_of_operand hfailure hnot hfiltered rfl
  have hshape : t :: rest ++ [⟨.mark .bar, line⟩, ⟨.name filter, line⟩] ++ [(⟨.stop .output, line⟩ : Lexeme)] =
      t :: (rest ++ [⟨.mark .bar, line⟩, ⟨.name filter, line⟩, ⟨.stop .output, line⟩]) := by simp
  -- both readings are the same with enough fuel
  rw [← hshape] at hexpr
  have hmore := run_readExpr_stop (barred_stop .output line []) h
    (show fuel < fuel + fuel' + 12 by omega) .output line []
  have hmore' := run_readExpr_stop (barred_stop .output line []) hexpr
    (show fuel' + 11 < fuel + fuel' + 12 by omega) .output line []
  rw [hmore] at hmore'
  exact (Prod.mk.inj (Except.ok.inj hmore')).1

/-- Behind a phrase, a filter belongs to the last operand; where all of the phrase is an operand, to all of it. -/
theorem read_filtered (h : IsPhrase .output s e ls line) (hfilter : IsIdentifier filter) : ∃ (p : LastPlace) (o : Expr),
    e = p.fill o ∧ EndsIn [⟨.stop .output, line⟩] ls o ∧ (IsOperand .output ls line e → p = .here) ∧
      read (Dialect.output (s ++ '|' :: filter)) = .ok [.output (p.fill (.filter o filter [] []))] := by
  have hx := exchange_filter (barred_stop .output line []) filter .output line line []
  have hreads : (readExpr (16 * ls.length + 63) nestingLimit).run (ls ++ [⟨.stop .output, line⟩]) = _ := h.reads
  obtain ⟨_, ⟨p, o, he, rfl, hends⟩, hrun⟩ := hx.readExpr hreads
    (show 16 * ls.length + 63 < 16 * ls.length + 95 by omega)
  refine ⟨p, o, he, hends, fun hop => ?_, ?_⟩
  · have hshape : ls ++ [⟨.mark .bar, line⟩, ⟨.name filter, line⟩] ++ [(⟨.stop .output, line⟩ : Lexeme)] =
        ls ++ [⟨.mark .bar, line⟩, ⟨.name filter, line⟩, ⟨.stop .output, line⟩] := by simp
    rw [← hshape] at hrun
    have hfill := run_filtered_operand hop filter hrun
    cases p with
    | here => rfl
    | _ => cases hfill
  have hfuel : 16 * (ls ++ [(⟨.mark .bar, line⟩ : Lexeme), ⟨.name filter, line⟩, ⟨.stop .output, line⟩]).length + 47 =
      16 * ls.length + 95 := by
    simp only [List.length_append, List.length_cons, List.length_nil]
    omega
  exact read_output_of_run (h.tokens_filtered hfilter) (hfuel ▸ hrun)

end IsPhrase

/-! ## Templates read as given -/

/-- Whether two expressions of names, whole numbers, operators and plain filters are the same. Other values have
floating point numbers in them, of which equality is not decided. -/
def Expr.same : Expr → Expr → Bool
  | .var line name, .var line' name' => line == line' && name == name'
  | .const line (.int n), .const line' (.int n') => line == line' && n == n'
  | .binary op a b, .binary op' a' b' => op == op' && a.same a' && b.same b'
  | .filter e name [] [], .filter e' name' [] [] => e.same e' && name == name'
  | _, _ => false

theorem Expr.eq_of_same {x y : Expr} (h : x.same y = true) : x = y := by
  fun_induction Expr.same x y with
  | case1 => simp_all
  | case2 => simp_all
  | case3 op a b op' a' b' iha ihb =>
    simp only [Bool.and_eq_true, beq_iff_eq] at h
    rw [h.1.1, iha h.1.2, ihb h.2]
  | case4 e name e' name' ih =>
    simp only [Bool.and_eq_true, beq_iff_eq] at h
    rw [ih h.1, h.2]
  | case5 => cases h

/-- Whether two statements that print such an expression, or set a name to one, are the same. -/
def Stmt.same : Stmt → Stmt → Bool
  | .output x, .output y => x.same y
  | .assign (.name n) x, .assign (.name n') y => n == n' && x.same y
  | _, _ => false

theorem Stmt.eq_of_same {stmt stmt' : Stmt} (h : stmt.same stmt' = true) : stmt = stmt' := by
  unfold Stmt.same at h
  split at h
  · rw [Expr.eq_of_same h]
  · simp only [Bool.and_eq_true, beq_iff_eq] at h
    rw [h.1, Expr.eq_of_same h.2]
  · cases h

theorem eq_of_isEqv {stmts stmts' : List Stmt} (h : stmts.isEqv stmts' Stmt.same = true) : stmts = stmts' := by
  induction stmts generalizing stmts' with
  | nil => cases stmts' <;> [rfl; cases h]
  | cons stmt stmts ih =>
    cases stmts' with
    | nil => cases h
    | cons stmt' stmts' =>
      simp only [List.isEqv, Bool.and_eq_true] at h
      rw [Stmt.eq_of_same h.1, ih h.2]

/-- Whether a template reads as such statements, on so many levels of nesting. -/
def readsOn (levels : Nat) (s : Chars) (stmts : List Stmt) : Bool :=
  match (readBody (16 * (tokens s).length + 32) levels false []).run (tokens s) with
  | .ok (stmts', _) => stmts'.isEqv stmts Stmt.same
  | .error _ => false

theorem exists_of_readsOn {levels : Nat} {s : Chars} {stmts : List Stmt} (h : readsOn levels s stmts = true) :
    ∃ rest, (readBody (16 * (tokens s).length + 32) levels false []).run (tokens s) = .ok (stmts, rest) := by
  unfold readsOn at h
  split at h
  · rename_i stmts' rest hrun
    exact ⟨rest, eq_of_isEqv h ▸ hrun⟩
  · cases h

/-- Whether a template reads as such statements. -/
def readsAs (s : Chars) (stmts : List Stmt) : Bool := readsOn nestingLimit s stmts

theorem read_of_readsAs {s : Chars} {stmts : List Stmt} (h : readsAs s stmts = true) : read s = .ok stmts := by
  obtain ⟨rest, hrun⟩ := exists_of_readsOn h
  rw [read, hrun]
  rfl

end ViewBridge.Template
