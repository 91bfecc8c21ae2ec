import ViewBridge.Proofs.Counting.Range
import ViewBridge.Proofs.Phrase.Reading
/-!
# Expressions as operands

A filter behind an expression, and a number that is added to the end of a range, are to apply to all of it. So an
expression with a blank or a bar in it is put in parentheses there, and then they do. An expression without any is left
as it is, whatever operators it has: a filter behind it is applied to its last operand.

Results:
* `read_loop`: a loop goes over what an output tag prints.
* `IsExpression.read_filtered`, `IsExpression.read_range`: a filter behind parentheses, and a range up to them.
* `read_operand`: what the emitters make of an expression.
-/
namespace ViewBridge

open Template Template.Reading
open Translator (IsIdentifier)

namespace Template

/-! ## Loops over expressions -/

/-- The names in a loop tag, their tokens and what they bind. -/
structure Binds (names : Chars) (ls : List Lexeme) (target : Target) : Prop where
  scans : ∀ r ms, ScansTag .statement 1 r ms →
    ScansTag .statement 1 (' ' :: ("for".toList ++ ' ' :: (names ++ ' ' :: ("in".toList ++ ' ' :: r))))
      (⟨.name "for".toList, 1⟩ :: (ls ++ ⟨.name "in".toList, 1⟩ :: ms))
  reads : ∀ fuel ts, (readTarget (fuel + 3)).run (ls ++ ⟨.name "in".toList, 1⟩ :: ts) =
    .ok (target, ⟨.name "in".toList, 1⟩ :: ts)

theorem binds_name {v : Chars} (hid : IsIdentifier v) (hv : Bindable v) : Binds v [⟨.name v, 1⟩] (.name v) where
  scans _ _ h := .forName hid.1 (List.all_eq_true.2 hid.2) h
  reads fuel ts := run_readTarget_name hv (fuel + 1) 1 ts

theorem binds_pair {key value : Chars} (hkey : IsIdentifier key) (hvalue : IsIdentifier value) (hbind : Bindable key)
    (hbind' : Bindable value) : Binds (key ++ ", ".toList ++ value)
      [⟨.name key, 1⟩, ⟨.mark .comma, 1⟩, ⟨.name value, 1⟩] (.several 1 [.name key, .name value]) where
  scans r ms h := by
    have hpair := ScansTag.forPair hkey.1 (List.all_eq_true.2 hkey.2) hvalue.1 (List.all_eq_true.2 hvalue.2) h
    have hshape : key ++ ", ".toList ++ value ++ ' ' :: ("in".toList ++ ' ' :: r) =
        key ++ ',' :: ' ' :: (value ++ ' ' :: ("in".toList ++ ' ' :: r)) := by simp
    rw [hshape]
    exact hpair
  reads fuel ts := run_readTarget_pair hbind hbind' fuel 1 ts

/-- A choice between two expressions. -/
def Expr.IsChoice (e : Expr) : Prop := ∃ test yes no, e = .cond test yes no

/-- Behind an expression stands no condition, or it becomes a choice. -/
theorem isChoice_of_readConditions {fuel levels : Nat} {a e : Expr} {ts ts' : List Lexeme}
    (h : (readConditions fuel levels a).run ts = .ok (e, ts')) : e = a ∧ ts' = ts ∨ e.IsChoice := by
  induction fuel generalizing a ts with
  | zero =>
    rw [readConditions] at h
    cases h
  | succ fuel ih =>
    have hmore {test yes no : Expr} {ts : List Lexeme}
        (h : (readConditions fuel levels (.cond test yes no)).run ts = .ok (e, ts')) : e.IsChoice :=
      (ih h).elim (fun h => ⟨test, yes, no, h.1⟩) id
    rw [readConditions] at h
    obtain ⟨isIf, mid, hif, h⟩ := eq_of_run_bind h
    cases isIf with
    | false =>
      obtain ⟨rfl, rfl⟩ := Prod.mk.inj (Except.ok.inj h)
      obtain ⟨l, rest, rfl, ⟨hb, -⟩ | ⟨-, rfl⟩⟩ := eq_of_run_accept hif
      · cases hb
      · exact .inl ⟨rfl, rfl⟩
    | true =>
      obtain ⟨test, _, -, h⟩ := eq_of_run_bind h
      obtain ⟨isElse, _, -, h⟩ := eq_of_run_bind h
      cases isElse with
      | false => exact .inr (hmore h)
      | true =>
        obtain ⟨no, _, -, h⟩ := eq_of_run_bind h
        exact .inr (hmore h)

/-- An expression that is no choice has no condition. -/
theorem run_readLevel_of_readExpr {fuel levels : Nat} {e : Expr} {ts ts' : List Lexeme} (he : ¬ e.IsChoice)
    (h : (readExpr (fuel + 2) (levels + 1)).run ts = .ok (e, ts')) :
    (readLevel fuel levels .either).run ts = .ok (e, ts') := by
  rw [readExpr, readChoice] at h
  obtain ⟨a, mid, hlevel, hmore⟩ := eq_of_run_bind h
  obtain ⟨rfl, rfl⟩ := (isChoice_of_readConditions hmore).resolve_right he
  exact hlevel

/-- A loop goes over what an output tag prints, unless that is a choice. -/
theorem read_loop {s names : Chars} {e : Expr} {ls : List Lexeme} {target : Target} (hbinds : Binds names ls target)
    (h : read (Dialect.output s) = .ok [.output e]) (he : ¬ e.IsChoice) {body : LoopTemplate} (hbody : body.WellFormed)
    (hdeep : body.nesting + 4 ≤ nestingLimit) :
    read (Dialect.tag ("for ".toList ++ names ++ " in ".toList ++ s) ++
      (body.target 1 ++ Dialect.tag "endfor".toList)) =
        .ok [.loop target e none (body.stmts 1 (1 + lineBreaks s)) []] := by
  obtain ⟨us, line, hclosed, hrun⟩ := (isExpression_zero_iff.2 h).exists_closed
  rw [← hclosed.lexes.line_eq]
  refine LoopTemplate.read_over hbody hdeep ls us (fun r ms hr => ?_) hbinds.reads fun fuel hfuel ts => ?_
  · have hshape : Dialect.tag ("for ".toList ++ names ++ " in ".toList ++ s) ++ r = [] ++ '\x7b' ::
        TagKind.statement.mark :: ' ' :: ("for".toList ++ ' ' :: (names ++ ' ' :: ("in".toList ++ ' ' ::
          (s ++ ' ' :: (TagKind.statement.closing ++ r))))) := by
      simp [Dialect.tag, TagKind.mark, TagKind.closing]
    have hsource : ScansTag .statement 1 (s ++ ' ' :: (TagKind.statement.closing ++ r))
        (us ++ ⟨.stop .statement, line⟩ :: ms) :=
      .phrase hclosed.spells hclosed.lexes.length_le (.inl rfl) (.blank (.stop hr))
    rw [hshape]
    exact Scans.tag .statement List.not_mem_nil (fun _ => rfl) (hbinds.scans _ _ hsource)
  · have hlevel := run_readLevel_of_readExpr he hrun
    exact (exchange_stop (barred_stop .output line []) .statement line ts).run_readLevel hlevel (by omega)

/-! ## Parentheses -/

section
variable {s : Chars} {e : Expr} {ls ms rest : List Lexeme} {line fuel fuel' levels : Nat}

/-- The tokens of a text in parentheses. -/
def grouped (ls : List Lexeme) (line : Nat) : List Lexeme :=
  ⟨.mark .openParen, 1⟩ :: (ls ++ [⟨.mark .closeParen, line⟩])

theorem length_grouped (ls : List Lexeme) (line : Nat) : (grouped ls line).length = ls.length + 2 := by
  simp [grouped]

namespace IsClosed

theorem scanTag_grouped (h : IsClosed s ls line) (kind : TagKind) (fuel : Nat) {depth : Int} (hdepth : 0 ≤ depth)
    (r : Chars) : scanTag (fuel + 1 + (grouped ls line).length) kind depth 1 ('(' :: (s ++ ')' :: r)) =
      grouped ls line ++ scanTag (fuel + 1) kind depth line r := by
  have hopen (r : Chars) : readToken ('(' :: r) = (.mark .openParen, r) := by cases r <;> rfl
  have hclose (r : Chars) : readToken (')' :: r) = (.mark .closeParen, r) := by cases r <;> rfl
  have hfuel : fuel + 1 + (grouped ls line).length = fuel + 1 + 1 + ls.length + 1 := by
    rw [length_grouped]
    omega
  have hdeeper : depth + Mark.openParen.nesting = depth + 1 := rfl
  have hinner : depthAfter (depth + 1) ls = depth + 1 := by
    have hadd := depthAfter_add (depth + 1) 0 ls
    rwa [h.depth, Int.add_zero] at hadd
  have hback : depth + 1 + Mark.closeParen.nesting = depth := by
    show depth + 1 + -1 = depth
    omega
  rw [hfuel, scanTag_mark _ depth (hopen _) rfl (by decide) (by decide), hdeeper,
    h.lexes.scanTag (h.nested.mono (by omega)) kind _ (.inr rfl) r, hinner,
    scanTag_mark _ _ (hclose r) rfl (by decide) (by decide), hback]
  simp only [grouped, List.append_assoc, List.cons_append, List.nil_append]

/-- A text in parentheses in a tag, in front of what is known. -/
theorem scansTag_grouped {kind : TagKind} {r : Chars} (h : IsClosed s ls line) (hr : ScansTag kind line r ms) :
    ScansTag kind 1 ('(' :: (s ++ ')' :: r)) (grouped ls line ++ ms) := by
  intro fuel hfuel
  have hlength := h.lexes.length_le
  simp only [List.length_cons, List.length_append] at hfuel
  obtain ⟨fuel, rfl⟩ : ∃ n, fuel = n + 1 + (grouped ls line).length := by
    refine ⟨fuel - (ls.length + 3), ?_⟩
    rw [length_grouped]
    omega
  rw [length_grouped] at hfuel
  rw [h.scanTag_grouped kind fuel (Int.le_refl 0) r, hr (fuel + 1) (by omega)]

theorem spellsInside_grouped (h : IsClosed s ls line) : SpellsInside 1 ('(' :: s ++ [')']) (grouped ls line) := by
  intro kind fuel depth hdepth u _ _
  have hbreaks : lineBreaks ('(' :: s ++ [')']) = lineBreaks s := by
    have hlast : lineBreaks [')'] = 0 := rfl
    rw [List.cons_append, lineBreaks_cons (by decide), lineBreaks_append, hlast, Nat.add_zero]
  have hshape : '(' :: s ++ [')'] ++ u = '(' :: (s ++ ')' :: u) := by simp
  rw [hshape, h.scanTag_grouped kind fuel (Int.le_of_lt hdepth) u, hbreaks, h.lexes.line_eq]

/-- An expression starts with a token that can stand behind an opening parenthesis. -/
theorem exists_head (h : IsClosed s ls line)
    (hrun : (readExpr fuel levels).run (ls ++ [⟨.stop .output, line⟩]) = .ok (e, [⟨.stop .output, line⟩])) :
    ∃ t ts, ls = t :: ts ∧ t.token.isFailure = false ∧ t.token.isMark .closeParen = false := by
  cases ls with
  | nil =>
    have hx := exchange_stop (barred_stop .output line []) .output line []
    exact absurd hrun (Refuses.expr hx fuel levels _)
  | cons t ts =>
    refine ⟨t, ts, rfl, h.lexes.isFailure_eq_false t List.mem_cons_self, ?_⟩
    obtain ⟨token, line'⟩ := t
    cases token with
    | mark m =>
      cases m with
      | closeParen => exact absurd h.nested.1 (show ¬ (0 : Int) ≤ -1 by decide)
      | _ => rfl
    | _ => rfl

/-- An expression in parentheses is one operand, whatever stands behind it. -/
theorem isRead_grouped (h : IsClosed s ls line)
    (hrun : (readExpr fuel levels).run (ls ++ [⟨.stop .output, line⟩]) = .ok (e, [⟨.stop .output, line⟩])) :
    IsRead .signed (fuel + 3) (levels + 1) (grouped ls line) e := by
  obtain ⟨t, ts, rfl, hfailure, hclose⟩ := h.exists_head hrun
  refine .parentheses hfailure hclose (fun fuel' rest hfuel => ?_) 1
  exact (exchange_closing (barred_stop .output line []) line rest).run_readExpr hrun hfuel

/-- A filter behind parentheses is applied to all that stands in them. -/
theorem run_readExpr_filtered (h : IsClosed s ls line)
    (hrun : (readExpr fuel levels).run (ls ++ [⟨.stop .output, line⟩]) = .ok (e, [⟨.stop .output, line⟩]))
    (hfuel : fuel + 14 < fuel') (filter : Chars) {l : Lexeme} (hl : l.token.endsExpr = true) (rest : List Lexeme) :
    (readExpr fuel' (levels + 2)).run (grouped ls line ++ ⟨.mark .bar, line⟩ :: ⟨.name filter, line⟩ :: l :: rest) =
      .ok (.filter e filter [] [], l :: rest) := by
  obtain ⟨fuel', rfl⟩ : ∃ n, fuel' = n + 14 := ⟨fuel' - 14, by omega⟩
  obtain ⟨t, ts, rfl, hfailure, hclose⟩ := h.exists_head hrun
  have hinner := (exchange_closing (barred_stop .output line []) line
    (⟨.mark .bar, line⟩ :: ⟨.name filter, line⟩ :: l :: rest)).run_readExpr hrun (show fuel < fuel' + 1 by omega)
  rw [List.cons_append] at hinner
  have hoperand := run_readLevel_parentheses hfailure hclose hl hinner 1
  have hshape : grouped (t :: ts) line ++ ⟨.mark .bar, line⟩ :: ⟨.name filter, line⟩ :: l :: rest =
      ⟨.mark .openParen, 1⟩ :: t :: (ts ++ ⟨.mark .closeParen, line⟩ :: ⟨.mark .bar, line⟩ ::
        ⟨.name filter, line⟩ :: l :: rest) := by
    simp only [grouped, List.append_assoc, List.cons_append, List.nil_append]
  rw [hshape]
  exact run_readExpr_of_operand rfl rfl hoperand hl

end IsClosed

end

/-! ## What stands behind an expression in parentheses -/

namespace IsExpression

variable {s : Chars} {e : Expr}

/-- In an output tag, a filter behind parentheses is applied to all that stands in them. -/
theorem read_filtered (h : IsExpression 2 s e) {filter : Chars} (hfilter : IsIdentifier filter) :
    read (Dialect.output ('(' :: s ++ [')'] ++ '|' :: filter)) = .ok [.output (.filter e filter [] [])] := by
  obtain ⟨ls, line, hclosed, hrun⟩ := h.exists_closed
  have hend : ScansTag .output line (' ' :: (TagKind.output.closing ++ [])) [⟨.stop .output, line⟩] :=
    (ScansTag.stop (Scans.text List.not_mem_nil line)).blank
  have hname := hend.name hfilter.1 (List.all_eq_true.2 hfilter.2) rfl
  have hbar (r : Chars) : readToken ('|' :: r) = (.mark .bar, r) := by cases r <;> rfl
  have hinside := hclosed.scansTag_grouped (hname.mark (hbar _) rfl rfl (by decide) (by decide))
  have htag := @Scans.tag _ _ _ .output [] List.not_mem_nil (fun hkind => by cases hkind) hinside.blank
  have hshape : Dialect.output ('(' :: s ++ [')'] ++ '|' :: filter) = [] ++ '\x7b' :: TagKind.output.mark :: ' ' ::
      '(' :: (s ++ ')' :: '|' :: (filter ++ ' ' :: (TagKind.output.closing ++ []))) := by
    simp [Dialect.output, TagKind.mark, TagKind.closing]
  rw [← hshape] at htag
  have htokens := tokens_of_scans (Dialect.getLast?_output _) htag
  refine read_output_of_run htokens (hclosed.run_readExpr_filtered hrun ?_ filter rfl [])
  simp only [List.length_append, List.length_cons, List.length_nil, length_grouped]
  omega

end IsExpression

end Template

/-! ## Ranges -/

/-- The last argument of `range` for a loop that counts up to an expression, on the line that this ends on. -/
def Dialect.endExpr (d : Dialect) (inclusive : Bool) (line : Nat) (e : Expr) : Expr :=
  match d, inclusive with
  | .twig, true | .minijinja, false => e
  | .twig, false => .binary .sub e (.const line (.int 1))
  | .minijinja, true => .binary .add e (.const line (.int 1))

namespace Template

section
variable {e : Expr} {ls : List Lexeme} {line need levels : Nat} {s : Chars}

/-- The tokens of a text with a number added or taken away. -/
def stepped (op : Sign) (ls : List Lexeme) (line : Nat) : List Lexeme :=
  ls ++ ⟨.mark op.token, line⟩ :: [⟨.int 1, line⟩]

theorem spellsInside_stepped (h : SpellsInside 1 s ls) (op : Sign) :
    SpellsInside 1 (s ++ [' ', op.mark, ' ', '1']) (stepped op ls (1 + lineBreaks s)) := by
  have hblank : isTagBlank op.mark = false := by cases op <;> rfl
  have hnesting : op.token.nesting = 0 := by cases op <;> rfl
  have hone (line : Nat) : SpellsInside line ['1'] [⟨.int 1, line⟩] := spellsInside_number Decimal.one (by decide) line
  exact .operator (fun s _ => Arithmetic.readToken_mark s) hblank hnesting op.behind_mark Gap.one Gap.one h hone
    (List.cons_ne_nil _ _) (by rintro _ ⟨⟩; decide)

/-- What is one operand is an argument of a call. -/
theorem isArgument_of_signed {t : Lexeme} (h : IsRead .signed need (levels + 1) (t :: ls) e) (hneed : ls.length < need)
    (ht : t.token.isFailure = false) (hnot : t.token.isName "not" = false) (hclose : t.token.isMark .closeParen = false) :
    IsArgument (need + 17) (levels + 2) (t :: ls) e where
  head := ⟨t, ls, rfl, ht, hclose⟩
  reads fuel m line rest hfuel hm := by
    have hsum := h.ofSigned.ofOperand.ofProduct (by simp only [List.length_cons]; omega)
    exact hsum.readExpr (by omega) ht hnot hm (by omega) line rest

/-- An operand with a number added or taken away is an argument of a call. -/
theorem isArgument_stepped {t : Lexeme} (h : IsRead .signed need (levels + 1) (t :: ls) e) (hneed : ls.length < need)
    (ht : t.token.isFailure = false) (hnot : t.token.isName "not" = false) (hclose : t.token.isMark .closeParen = false)
    (op : Sign) (line : Nat) : IsArgument (need + 40) (levels + 2) (stepped op (t :: ls) line)
      (.binary op.operator e (.const line (.int 1))) where
  head := ⟨t, _, rfl, ht, hclose⟩
  reads fuel m line' rest hfuel hm := by
    have hone : IsRead .product (16 * 1 + 5) (levels + 1) [⟨.int 1, line⟩] (.const line (.int 1)) :=
      Arithmetic.isRead_lexemes (.ofOperand (.ofSigned (.number Decimal.one))) (levels + 1) (Nat.le_add_left 1 levels) line
    have hsum := (h.ofSigned.ofOperand.ofProduct (by simp only [List.length_cons]; omega)).sum hone
      (show 1 ≤ 16 * 1 + 5 by decide) op line
    have hexpr := hsum.mono (show _ ≤ need + 32 by simp only [List.length_cons]; omega)
    rw [stepped, List.cons_append] at *
    refine IsRead.readExpr hexpr ?_ ht hnot hm hfuel line' rest
    simp only [List.length_append, List.length_cons, List.length_nil]
    omega

/-- The end of a range up to an expression in parentheses. -/
theorem IsExpression.exists_argument (h : IsExpression 3 s e) (hparen : operand s = '(' :: s ++ [')']) (d : Dialect)
    (inclusive : Bool) : ∃ us, SpellsInside 1 (d.upperBound s inclusive) us ∧
      us.length ≤ (d.upperBound s inclusive).length ∧
        IsArgument (16 * us.length + 80) 149 us (d.endExpr inclusive (1 + lineBreaks s) e) := by
  obtain ⟨ls, line, hclosed, hrun⟩ := h.exists_closed
  have hspells := hclosed.spellsInside_grouped
  have hsigned : IsRead .signed (16 * ls.length + 66) 148 (grouped ls line) e := hclosed.isRead_grouped hrun
  have hlength : (grouped ls line).length ≤ ('(' :: s ++ [')']).length := by
    have hle := hclosed.lexes.length_le
    simp only [length_grouped, List.length_append, List.length_cons, List.length_nil]
    omega
  have hneed : (ls ++ [(⟨.mark .closeParen, line⟩ : Lexeme)]).length < 16 * ls.length + 66 := by
    simp only [List.length_append, List.length_singleton]
    omega
  have hbreaks : lineBreaks ('(' :: s ++ [')']) = lineBreaks s := by
    have hlast : lineBreaks [')'] = 0 := rfl
    rw [List.cons_append, lineBreaks_cons (by decide), lineBreaks_append, hlast, Nat.add_zero]
  have halone := (isArgument_of_signed hsigned hneed rfl rfl rfl).mono
    (show _ ≤ 16 * (grouped ls line).length + 80 by rw [length_grouped]; omega)
  have hstepped (op : Sign) : ∃ us, SpellsInside 1 ('(' :: s ++ [')'] ++ [' ', op.mark, ' ', '1']) us ∧
      us.length ≤ ('(' :: s ++ [')'] ++ [' ', op.mark, ' ', '1']).length ∧
        IsArgument (16 * us.length + 80) 149 us (.binary op.operator e (.const (1 + lineBreaks s) (.int 1))) := by
    refine ⟨stepped op (grouped ls line) (1 + lineBreaks s), hbreaks ▸ spellsInside_stepped hspells op, ?_, ?_⟩
    · simp only [stepped, List.length_append, List.length_cons, List.length_nil] at hlength ⊢
      omega
    · refine (isArgument_stepped hsigned hneed rfl rfl rfl op _).mono ?_
      simp only [stepped, length_grouped, List.length_append, List.length_cons, List.length_nil]
      omega
  simp only [Dialect.upperBound, hparen]
  cases d <;> cases inclusive
  · exact hstepped .minus
  · exact ⟨_, hspells, hlength, halone⟩
  · exact ⟨_, hspells, hlength, halone⟩
  · exact hstepped .plus

/-- A range up to an expression in parentheses ends with all that stands in them, or with one more or one less. -/
theorem IsExpression.read_range (h : IsExpression 3 s e) (hparen : operand s = '(' :: s ++ [')']) (d : Dialect)
    (inclusive : Bool) {first : Decimal} (hfirst : first.value < Nat.pow 2 128) :
    read (Dialect.output ("range(".toList ++ first.1 ++ ", ".toList ++ d.upperBound s inclusive ++ ")".toList)) =
      .ok [.output (.call 1 "range".toList
        [.const 1 (.int first.value), d.endExpr inclusive (1 + lineBreaks s) e])] := by
  obtain ⟨us, hspells, hlength, hargument⟩ := h.exists_argument hparen d inclusive
  have hnumber := spellsInside_number first hfirst 1
  have hbreaks : lineBreaks first.1 = 0 :=
    List.count_eq_zero.2 fun hbreak => absurd (first.2.2 _ hbreak) (by decide)
  have hone : IsArgument (16 * 1 + 17) 149 [⟨.int first.value, 1⟩] (.const 1 (.int first.value)) :=
    Arithmetic.isArgument (.ofProduct (.ofOperand (.ofSigned (.number first)))) (show 1 ≤ 148 by decide) 1
  generalize d.upperBound s inclusive = last at hspells hlength ⊢
  have hend : ScansTag .output (1 + lineBreaks first.1 + lineBreaks last) (' ' :: (TagKind.output.closing ++ []))
      [⟨.stop .output, 1 + lineBreaks last⟩] := by
    rw [hbreaks]
    exact (ScansTag.stop (Scans.text List.not_mem_nil _)).blank
  have hcall := ScansTag.rangeCall hnumber (List.length_pos_iff.2 first.2.1) (hbreaks ▸ hspells) hlength hend
  have htag := @Scans.tag _ _ _ .output [] List.not_mem_nil (fun hkind => by cases hkind) hcall.blank
  have hshape : Dialect.output ("range(".toList ++ first.1 ++ ", ".toList ++ last ++ ")".toList) = [] ++ '\x7b' ::
      TagKind.output.mark :: ' ' :: ("range(".toList ++ (first.1 ++ (", ".toList ++ (last ++
        ')' :: ' ' :: (TagKind.output.closing ++ []))))) := by
    simp [Dialect.output, TagKind.mark, TagKind.closing]
  rw [← hshape, hbreaks] at htag
  have htokens := tokens_of_scans (Dialect.getLast?_output _) htag
  refine @read_output_of_run _ _ (1 + lineBreaks last) _ htokens ?_
  generalize hfuel : 16 * (rangeCall 1 (1 + 0) (1 + 0 + lineBreaks last) _ us ++ _).length + 47 = fuel
  simp only [rangeCall, List.length_append, List.length_cons, List.length_nil] at hfuel
  obtain ⟨fuel, rfl⟩ : ∃ n, fuel = n + 3 := ⟨fuel - 3, by omega⟩
  have hlevel := @run_readLevel_rangeCall (fuel + 1) 148 1 ⟨.stop .output, 1 + lineBreaks last⟩ [] _ _ (1 + 0)
    (1 + 0 + lineBreaks last) _ _ _ _ hone hargument (by omega) rfl
  rw [nestingLimit, readExpr, readChoice, run_bind_ok hlevel, run_readConditions rfl]

end

/-! ## What the emitters print -/

/-- A helper call that is written as a filter, and loops over the values and over the pairs of an expression: each of
them is read with an expression that its filter may have made. -/
structure Emitted (e : Chars) (made : Chars → Expr → Prop) : Prop where
  call : ∀ (d : Dialect) (helper filter : Chars), d.filterOf? helper = some filter → IsIdentifier filter →
    ∃ form x, made filter x ∧ d.filterForm? helper e = some form ∧ read form = .ok [.output x]
  single : ∀ (v : Chars) (body : LoopTemplate), IsIdentifier v → Bindable v → body.WellFormed →
    body.nesting + 4 ≤ nestingLimit → ∃ x, made "legacy_values".toList x ∧ (¬ x.IsChoice →
      read (Dialect.minijinja.forSingle v e ++ (body.target 1 ++ Dialect.tag "endfor".toList)) =
        .ok [.loop (.name v) x none (body.stmts 1 (1 + lineBreaks e)) []])
  pair : ∀ (key value : Chars) (body : LoopTemplate), IsIdentifier key → IsIdentifier value → Bindable key →
    Bindable value → body.WellFormed → body.nesting + 4 ≤ nestingLimit →
    ∃ x, made "legacy_pairs".toList x ∧ (¬ x.IsChoice →
      read (Dialect.minijinja.forPair key value e ++ (body.target 1 ++ Dialect.tag "endfor".toList)) =
        .ok [.loop (.several 1 [.name key, .name value]) x none (body.stmts 1 (1 + lineBreaks e)) []])

theorem lineBreaks_operand (e : Chars) : lineBreaks (operand e) = lineBreaks e := by
  rcases operand_eq e with ⟨heq, -⟩ | ⟨heq, -⟩
  · rw [heq]
  · have hlast : lineBreaks [')'] = 0 := rfl
    rw [heq, List.cons_append, lineBreaks_cons (by decide), lineBreaks_append, hlast, Nat.add_zero]

theorem lineBreaks_range (d : Dialect) (first : Decimal) (e : Chars) (inclusive : Bool) :
    lineBreaks ("range(".toList ++ first.1 ++ ", ".toList ++ d.upperBound e inclusive ++ ")".toList) = lineBreaks e := by
  have hfirst : lineBreaks first.1 = 0 :=
    List.count_eq_zero.2 fun hbreak => absurd (first.2.2 _ hbreak) (by decide)
  have hlast : lineBreaks (d.upperBound e inclusive) = lineBreaks e := by
    cases d <;> cases inclusive <;> simp only [Dialect.upperBound, lineBreaks_append, lineBreaks_operand] <;> rfl
  simp only [lineBreaks_append, hfirst, hlast]
  exact Nat.zero_add _

theorem forRange_eq (d : Dialect) (v first e : Chars) (inclusive : Bool) : d.forRange v first e inclusive =
    Dialect.tag ("for ".toList ++ v ++ " in ".toList ++
      ("range(".toList ++ first ++ ", ".toList ++ d.upperBound e inclusive ++ ")".toList)) := by
  simp [Dialect.forRange]

/-- All emitters put their filter where an output tag has it. -/
theorem emitted_of_read {e : Chars} {made : Chars → Expr → Prop} (h : ∀ filter, IsIdentifier filter →
    ∃ x, made filter x ∧ read (Dialect.output (operand e ++ '|' :: filter)) = .ok [.output x]) : Emitted e made where
  call d helper filter hfilter hid := by
    obtain ⟨x, hmade, hread⟩ := h filter hid
    exact ⟨_, x, hmade, by rw [Dialect.filterForm?, hfilter]; rfl, hread⟩
  single v body hid hv hbody hdeep := by
    obtain ⟨x, hmade, hread⟩ := h "legacy_values".toList (by decide)
    refine ⟨x, hmade, fun hx => ?_⟩
    have hloop := read_loop (binds_name hid hv) hread hx hbody hdeep
    rw [lineBreaks_append, lineBreaks_operand, ← List.append_assoc _ (operand e)] at hloop
    exact hloop
  pair key value body hkey hvalue hbind hbind' hbody hdeep := by
    obtain ⟨x, hmade, hread⟩ := h "legacy_pairs".toList (by decide)
    refine ⟨x, hmade, fun hx => ?_⟩
    have hloop := read_loop (binds_pair hkey hvalue hbind hbind') hread hx hbody hdeep
    rw [lineBreaks_append, lineBreaks_operand, ← List.append_assoc _ (operand e), ← List.append_assoc "for ".toList,
      ← List.append_assoc "for ".toList] at hloop
    exact hloop

/-- What stands behind an expression with a blank or a bar in it applies to all of the expression, which is in
parentheses: the filters of calls and of loops, and the number that the end of a range is more or less. An expression
without any is left as it is, and a filter behind it is applied to its last operand: to all of it if it is only one. -/
theorem read_operand (e : Chars) (x : Expr) :
    ((∃ c ∈ e, Text.isBlank c = true ∨ c = '|') → operand e = '(' :: e ++ [')'] ∧
      (IsExpression 2 e x → Emitted e fun filter x' => x' = .filter x filter [] []) ∧
      (IsExpression 3 e x → ∀ (d : Dialect) (v : Chars) (first : Decimal) (inclusive : Bool) (body : LoopTemplate),
        IsIdentifier v → Bindable v → first.value < Nat.pow 2 128 → body.WellFormed →
        body.nesting + 4 ≤ nestingLimit →
          read (d.forRange v first.1 e inclusive ++ (body.target 1 ++ Dialect.tag "endfor".toList)) =
            .ok [.loop (.name v) (.call 1 "range".toList [.const 1 (.int first.value),
              d.endExpr inclusive (1 + lineBreaks e) x]) none (body.stmts 1 (1 + lineBreaks e)) []])) ∧
    ((∀ c ∈ e, Text.isBlank c = false ∧ c ≠ '|') → operand e = e ∧ (IsExpression 0 e x →
      ∃ ls line, IsPhrase .output e x ls line ∧ Emitted e fun filter x' => ∃ (p : LastPlace) (o : Expr),
        x = p.fill o ∧ EndsIn [⟨.stop .output, line⟩] ls o ∧ (IsOperand .output ls line x → p = .here) ∧
          x' = p.fill (.filter o filter [] []))) := by
  have hexclusive : ¬ ((∃ c ∈ e, Text.isBlank c = true ∨ c = '|') ∧ ∀ c ∈ e, Text.isBlank c = false ∧ c ≠ '|') := by
    rintro ⟨⟨c, hc, hmark⟩, hnone⟩
    obtain ⟨hblank, hbar⟩ := hnone c hc
    rcases hmark with hmark | hmark
    · rw [hblank] at hmark
      cases hmark
    · exact hbar hmark
  constructor
  · intro hmark
    have hparen : operand e = '(' :: e ++ [')'] :=
      (operand_eq e).elim (fun h => absurd ⟨hmark, h.2⟩ hexclusive) And.left
    refine ⟨hparen, fun h => emitted_of_read fun filter hid => ⟨_, rfl, ?_⟩, ?_⟩
    · rw [hparen]
      exact h.read_filtered hid
    · intro h d v first inclusive body hid hv hfirst hbody hdeep
      have hread := h.read_range hparen d inclusive hfirst
      have hchoice : ¬ (Expr.call 1 "range".toList [.const 1 (.int first.value),
          d.endExpr inclusive (1 + lineBreaks e) x]).IsChoice := fun ⟨_, _, _, h⟩ => nomatch h
      have hloop := read_loop (binds_name hid hv) hread hchoice hbody hdeep
      rwa [lineBreaks_range, ← forRange_eq] at hloop
  · intro hnone
    have halone : operand e = e := (operand_eq e).elim And.left (fun h => absurd ⟨h.2, hnone⟩ hexclusive)
    refine ⟨halone, fun h => ?_⟩
    obtain ⟨ls, line, hphrase⟩ := exists_phrase_output (isExpression_zero_iff.1 h)
    refine ⟨ls, line, hphrase, emitted_of_read fun filter hid => ?_⟩
    obtain ⟨p, o, hx, hends, hoperand, hread⟩ := hphrase.read_filtered hid
    exact ⟨_, ⟨p, o, hx, hends, hoperand, rfl⟩, by rw [halone]; exact hread⟩

/-- The argument of a call that becomes a filter: a sum with blanks and the same sum without. -/
theorem read_operand_sum :
    let t : Translator := ⟨.minijinja, "html".toList⟩
    let spaced := "\x7bfunction=\x22htmlspecialchars($a + $b)\x22\x7d".toList
    let tight := "\x7bfunction=\x22htmlspecialchars($a+$b)\x22\x7d".toList
    let a : Expr := .var 1 ['a']
    let b : Expr := .var 1 ['b']
    let escaped (x : Expr) : Expr := .filter x "escape".toList [] []
    t.translate spaced = Dialect.output "(a + b)|escape".toList ∧
      read (t.translate spaced) = .ok [.output (escaped (.binary .add a b))] ∧
      read (Dialect.output "a+b".toList) = .ok [.output (.binary .add a b)] ∧
      t.translate tight = Dialect.output "a+b|escape".toList ∧
      ∃ p : LastPlace, p = .binary .add a .here ∧ p.fill b = .binary .add a b ∧
        read (t.translate tight) = .ok [.output (p.fill (escaped b))] := by
  intro t spaced tight a b escaped
  have hspaced : t.translate spaced = Dialect.output "(a + b)|escape".toList := by
    simp only [t, spaced, String.reduceToList]
    decide +kernel
  have htight : t.translate tight = Dialect.output "a+b|escape".toList := by
    simp only [t, tight, String.reduceToList]
    decide +kernel
  have hread : read (Dialect.output "a+b".toList) = .ok [.output (.binary .add (.var 1 ['a']) (.var 1 ['b']))] :=
    read_of_readsAs (by decide +kernel)
  have hnested : IsExpression 2 "a + b".toList (.binary .add (.var 1 ['a']) (.var 1 ['b'])) :=
    exists_of_readsOn (by decide +kernel)
  have hescape : Dialect.minijinja.filterOf? "htmlspecialchars".toList = some "escape".toList := rfl
  obtain ⟨-, hgrouped, -⟩ := (read_operand "a + b".toList (.binary .add (.var 1 ['a']) (.var 1 ['b']))).1
    ⟨' ', by decide, .inl rfl⟩
  obtain ⟨form, x, rfl, hform, hall⟩ := (hgrouped hnested).call .minijinja _ _ hescape (by decide)
  obtain rfl : Dialect.output "(a + b)|escape".toList = form := Option.some.inj hform
  have hnone : ∀ c ∈ "a+b".toList, Text.isBlank c = false ∧ c ≠ '|' := Expression.forall_mem_of_all (by decide)
  obtain ⟨-, halone⟩ := (read_operand _ (.binary .add (.var 1 ['a']) (.var 1 ['b']))).2 hnone
  obtain ⟨ls, line, -, hemitted⟩ := halone (isExpression_zero_iff.2 hread)
  obtain ⟨form, x, ⟨p, o, hx, -, -, rfl⟩, hform, hlast⟩ := hemitted.call .minijinja _ _ hescape (by decide)
  obtain rfl : Dialect.output "a+b|escape".toList = form := Option.some.inj hform
  have hpasted : read (Dialect.output "a+b|escape".toList) =
      .ok [.output (.binary .add (.var 1 ['a']) (.filter (.var 1 ['b']) "escape".toList [] []))] :=
    read_of_readsAs (by decide +kernel)
  obtain ⟨hfill, -⟩ := List.cons.inj (Except.ok.inj (hlast.symm.trans hpasted))
  obtain ⟨rfl, rfl⟩ := LastPlace.eq_of_fill_filter (Stmt.output.inj hfill)
  exact ⟨hspaced, hspaced ▸ hall, hread, htight, _, rfl, rfl, htight ▸ hpasted⟩

end Template
end ViewBridge
