import ViewBridge.Template.Reader
/-!
# Reading token by token

What the reader makes of single tags, whatever tokens stand behind them: of text, of an output tag with a
filtered variable, of an assignment of a variable, and of a loop over a filtered variable. A reading of a body
either yields statements and what is left or is refused, as soon as there is enough fuel for it.

Results:
* `run_readExpr_of_operand`: in front of a token that ends an expression, an operand is one.
* `Yields.data`, `Yields.output`, `Yields.assign`, `Yields.loop`: a body that starts with such a tag.
* `Yields.assign_refused`: an assignment that is nested too deep.
* `read_of_data`: a template of text.
-/
namespace ViewBridge.Template

variable {α β : Type}

namespace Reading

theorem run_bind (x : Reading α) (f : α → Reading β) (ts : List Lexeme) :
    (x >>= f).run ts = (x.run ts).bind fun (a, ts') => (f a).run ts' := by
  rw [StateT.run_bind]
  cases x.run ts <;> rfl

theorem run_bind_ok {x : Reading α} {ts ts' : List Lexeme} {a : α} (h : x.run ts = .ok (a, ts'))
    (f : α → Reading β) : (x >>= f).run ts = (f a).run ts' := by
  rw [run_bind, h]
  rfl

theorem run_bind_error {x : Reading α} {ts : List Lexeme} {kind : RenderErrorKind} (h : x.run ts = .error kind)
    (f : α → Reading β) : (x >>= f).run ts = .error kind := by
  rw [run_bind, h]
  rfl

theorem run_map_ok {x : Reading α} {ts ts' : List Lexeme} {a : α} (h : x.run ts = .ok (a, ts')) (f : α → β) :
    (f <$> x).run ts = .ok (f a, ts') := by
  rw [StateT.run_map, h]
  rfl

theorem run_map_error {x : Reading α} {ts : List Lexeme} {kind : RenderErrorKind} (h : x.run ts = .error kind)
    (f : α → β) : (f <$> x).run ts = .error kind := by
  rw [StateT.run_map, h]
  rfl

theorem run_peek {l : Lexeme} (h : l.token.isFailure = false) (ts : List Lexeme) :
    peek.run (l :: ts) = .ok (l, l :: ts) := by
  obtain ⟨token, line⟩ := l
  cases token <;> first | rfl | cases h

theorem run_take {l : Lexeme} (h : l.token.isFailure = false) (ts : List Lexeme) :
    take.run (l :: ts) = .ok (l, ts) := by
  rw [take, run_bind_ok (run_peek h ts)]
  rfl

theorem run_accept {l : Lexeme} (h : l.token.isFailure = false) {wanted : Token → Bool}
    (hl : wanted l.token = true) (ts : List Lexeme) : (accept wanted).run (l :: ts) = .ok (true, ts) := by
  rw [accept, run_bind_ok (run_peek h ts), if_pos hl]
  rfl

theorem run_accept_of_not {l : Lexeme} (h : l.token.isFailure = false) {wanted : Token → Bool}
    (hl : wanted l.token = false) (ts : List Lexeme) : (accept wanted).run (l :: ts) = .ok (false, l :: ts) := by
  rw [accept, run_bind_ok (run_peek h ts), if_neg (by simp [hl])]
  rfl

theorem run_expect {l : Lexeme} (h : l.token.isFailure = false) {wanted : Token → Bool}
    (hl : wanted l.token = true) (ts : List Lexeme) : (expect wanted).run (l :: ts) = .ok ((), ts) := by
  rw [expect, run_bind_ok (run_accept h hl ts)]
  rfl

theorem run_anyName (name : Chars) (line : Nat) (ts : List Lexeme) :
    anyName.run (⟨.name name, line⟩ :: ts) = .ok (name, ts) := by
  rw [anyName, run_bind_ok (run_take rfl ts)]
  rfl

end Reading

open Reading

/-! ## Operands as expressions -/

/-- Whether an expression ends in front of a token: no operator, filter or condition starts with it. -/
def Token.endsExpr : Token → Bool
  | .stop _ | .mark .closeParen | .mark .closeBrace => true
  | _ => false

namespace Token

variable {t : Token}

theorem isFailure_of_endsExpr (h : t.endsExpr = true) : t.isFailure = false := by
  cases t with
  | failure => cases h
  | _ => rfl

theorem isName_of_endsExpr (h : t.endsExpr = true) (s : String) : t.isName s = false := by
  cases t with
  | name => cases h
  | _ => rfl

theorem isMark_of_endsExpr (h : t.endsExpr = true) {m : Mark} (hm : (Token.mark m).endsExpr = false) :
    t.isMark m = false := by
  cases t with
  | mark m' =>
    refine beq_eq_false_iff_ne.2 ?_
    rintro rfl
    rw [h] at hm
    cases hm
  | _ => rfl

theorem join?_of_endsExpr (h : t.endsExpr = true) (l : Level) : l.join? t = none := by
  cases t with
  | stop => rfl
  | mark m => cases m <;> cases l <;> first | rfl | cases h
  | _ => cases h

theorem comparison?_of_endsExpr (h : t.endsExpr = true) : comparison? t = none := by
  cases t with
  | stop => rfl
  | mark m => cases m <;> first | rfl | cases h
  | _ => cases h

end Token

/-- A failure, or an expression in front of a token that ends it. -/
def Ended : Except RenderErrorKind (Expr × List Lexeme) → Prop
  | .ok (_, l :: _) => l.token.endsExpr = true
  | .ok (_, []) => False
  | .error _ => True

section
variable {levels : Nat} {t : Lexeme} {rest ts : List Lexeme} {e : Expr}
  {result : Except RenderErrorKind (Expr × List Lexeme)}

/-- Behind an expression that has ended nothing more is read. -/
theorem run_bind_of_ended {x : Reading Expr} {f : Expr → Reading Expr} (hx : x.run ts = result)
    (hresult : Ended result)
    (hf : ∀ e l rest, l.token.endsExpr = true → (f e).run (l :: rest) = .ok (e, l :: rest)) :
    (x >>= f).run ts = result := by
  match result, hresult with
  | .error kind, _ => exact run_bind_error hx f
  | .ok (e, l :: rest), hend => exact (run_bind_ok hx f).trans (hf e l rest hend)

theorem run_readJoined (ht : t.token.endsExpr = true) (fuel levels : Nat) (l : Level) (e : Expr) :
    (readJoined (fuel + 1) levels l e).run (t :: rest) = .ok (e, t :: rest) := by
  rw [readJoined, run_bind_ok (run_peek (Token.isFailure_of_endsExpr ht) rest), Token.join?_of_endsExpr ht]
  rfl

theorem run_readLinks (ht : t.token.endsExpr = true) (fuel levels : Nat) :
    (readLinks (fuel + 1) levels).run (t :: rest) = .ok ([], t :: rest) := by
  rw [readLinks, run_bind_ok (run_peek (Token.isFailure_of_endsExpr ht) rest)]
  simp only [Token.comparison?_of_endsExpr ht, Token.isName_of_endsExpr ht, Bool.false_eq_true, if_false]
  rfl

theorem run_readConditions (ht : t.token.endsExpr = true) (fuel levels : Nat) (e : Expr) :
    (readConditions (fuel + 1) levels e).run (t :: rest) = .ok (e, t :: rest) := by
  rw [readConditions, run_bind_ok (run_accept_of_not (Token.isFailure_of_endsExpr ht) (Token.isName_of_endsExpr ht _) rest)]
  rfl

/-- What comes to an end on the next level is read on this one. -/
theorem run_readLevel_of_tighter {l : Level} (hl : l ≠ .operand) (ht : t.token.isFailure = false)
    (hnot : t.token.isName "not" = false) {fuel : Nat}
    (h : (readLevel (fuel + 1) levels l.tighter).run (t :: rest) = result) (hresult : Ended result) :
    (readLevel (fuel + 1 + 1) levels l).run (t :: rest) = result := by
  cases l with
  | operand => exact absurd rfl hl
  | negation =>
    rw [readLevel, run_bind_ok (run_accept_of_not ht hnot rest)]
    exact h
  | comparison =>
    have hsum : (readLevel (fuel + 1) levels .sum).run (t :: rest) = result := h
    rw [readLevel]
    refine run_bind_of_ended hsum hresult fun e l rest hl => ?_
    rw [run_bind_ok (run_readLinks hl fuel levels)]
    rfl
  | _ =>
    rw [readLevel]
    · exact run_bind_of_ended h hresult fun e l rest hl => run_readJoined hl fuel levels _ e
    all_goals
      intro h
      cases h

/-- What comes to an end as an operand is an expression of every level. -/
theorem run_readLevel_of_operand (ht : t.token.isFailure = false) (hnot : t.token.isName "not" = false) {fuel : Nat}
    (h : (readLevel (fuel + 1) levels .operand).run (t :: rest) = result) (hresult : Ended result) (l : Level) :
    (readLevel (fuel + 1 + l.rank) levels l).run (t :: rest) = result := by
  induction hrank : l.rank generalizing l with
  | zero =>
    have hl : l = .operand := by cases l <;> first | rfl | cases hrank
    rw [hl]
    exact h
  | succ k ih =>
    have hl : l ≠ .operand := by
      rintro rfl
      cases hrank
    have htighter := ih l.tighter (by rw [Level.tighter_rank, hrank, Nat.add_sub_cancel])
    rw [Nat.add_right_comm] at htighter
    have hfuel : fuel + 1 + (k + 1) = fuel + k + 1 + 1 := by omega
    rw [hfuel]
    exact run_readLevel_of_tighter hl ht hnot htighter hresult

/-- An operand that comes to an end is an expression. -/
theorem run_readExpr_of_operand (ht : t.token.isFailure = false) (hnot : t.token.isName "not" = false) {fuel : Nat}
    (h : (readLevel (fuel + 1) levels .operand).run (t :: rest) = result) (hresult : Ended result) :
    (readExpr (fuel + 11) (levels + 1)).run (t :: rest) = result := by
  have hlevel := run_readLevel_of_operand ht hnot h hresult .either
  rw [readExpr, readChoice]
  exact run_bind_of_ended hlevel hresult fun e l rest hl => run_readConditions hl (fuel + 8) levels e

/-- An operand needs a level of its own, on whatever level it is read. -/
theorem run_readLevel_zero (ht : t.token.isFailure = false) (hnot : t.token.isName "not" = false)
    (hminus : t.token.isMark .minus = false) (l : Level) (fuel : Nat) :
    (readLevel fuel 0 l).run (t :: rest) = .error .syntaxError := by
  have hoperand (fuel : Nat) : (readLevel fuel 0 .operand).run (t :: rest) = .error .syntaxError := by
    have hsigned (fuel : Nat) : (readSigned fuel 0).run (t :: rest) = .error .syntaxError := by
      cases fuel with
      | zero => rw [readSigned]; rfl
      | succ fuel =>
        rw [readSigned, run_bind_ok (run_accept_of_not ht hminus rest)]
        cases fuel <;> rw [if_neg (by simp), readPrimary] <;> rfl
    cases fuel with
    | zero => rw [readLevel]; rfl
    | succ fuel => rw [readLevel, run_bind_error (hsigned fuel)]
  induction hrank : l.rank generalizing l fuel with
  | zero =>
    have hl : l = .operand := by cases l <;> first | rfl | cases hrank
    rw [hl]
    exact hoperand fuel
  | succ k ih =>
    have htighter (fuel : Nat) := ih l.tighter fuel (by rw [Level.tighter_rank, hrank, Nat.add_sub_cancel])
    cases fuel with
    | zero => rw [readLevel]; rfl
    | succ fuel =>
      cases l with
      | operand => cases hrank
      | negation =>
        rw [readLevel, run_bind_ok (run_accept_of_not ht hnot rest)]
        exact htighter fuel
      | comparison =>
        have hsum : (readLevel fuel 0 .sum).run (t :: rest) = _ := htighter fuel
        rw [readLevel, run_bind_error hsum]
      | _ =>
        rw [readLevel, run_bind_error (htighter fuel)]
        all_goals
          intro h
          cases h

theorem run_readExpr_one (ht : t.token.isFailure = false) (hnot : t.token.isName "not" = false)
    (hminus : t.token.isMark .minus = false) (fuel : Nat) :
    (readExpr fuel 1).run (t :: rest) = .error .syntaxError := by
  match fuel with
  | 0 => rw [readExpr]; rfl
  | 1 => rw [readExpr, readChoice]; rfl
  | fuel + 2 => rw [readExpr, readChoice, run_bind_error (run_readLevel_zero ht hnot hminus .either fuel)]

/-! ## Names -/

/-- Whether a name is read as that of a variable wherever an expression starts. -/
def NamesVariable (name : Chars) : Prop := name ≠ "not".toList ∧ constantNamed? name = none

theorem run_readSigned_name {name : Chars} (hname : constantNamed? name = none) (fuel line : Nat)
    (ts : List Lexeme) :
    (readSigned (fuel + 2) (levels + 1)).run (⟨.name name, line⟩ :: ts) = .ok (.var line name, ts) := by
  rw [readSigned, run_bind_ok (run_accept_of_not rfl rfl ts), if_neg (by simp), readPrimary,
    run_bind_ok (run_take rfl ts)]
  simp only [hname]
  rfl

theorem run_readPostfix {t : Lexeme} (ht : t.token.isFailure = false) (hdot : t.token.isMark .dot = false)
    (hbracket : t.token.isMark .openBracket = false) (hparen : t.token.isMark .openParen = false) (fuel : Nat)
    (e : Expr) (ts : List Lexeme) : (readPostfix (fuel + 1) levels e).run (t :: ts) = .ok (e, t :: ts) := by
  rw [readPostfix, run_bind_ok (run_accept_of_not ht hdot ts), if_neg (by simp),
    run_bind_ok (run_accept_of_not ht hbracket ts), if_neg (by simp),
    run_bind_ok (run_accept_of_not ht hparen ts), if_neg (by simp)]
  rfl

theorem run_readFilters (ht : t.token.endsExpr = true) (fuel levels : Nat) (e : Expr) :
    (readFilters (fuel + 1) levels e).run (t :: rest) = .ok (e, t :: rest) := by
  have hfailure := Token.isFailure_of_endsExpr ht
  rw [readFilters, run_bind_ok (run_accept_of_not hfailure (Token.isMark_of_endsExpr ht rfl) rest), if_neg (by simp),
    run_bind_ok (run_accept_of_not hfailure (Token.isName_of_endsExpr ht _) rest)]
  rfl

/-- A filter without arguments. -/
theorem run_readFilters_filter (ht : t.token.endsExpr = true) (fuel levels : Nat) (e : Expr) (filter : Chars)
    (line : Nat) :
    (readFilters (fuel + 2) levels e).run (⟨.mark .bar, line⟩ :: ⟨.name filter, line⟩ :: t :: rest) =
      .ok (.filter e filter [] [], t :: rest) := by
  have hfailure := Token.isFailure_of_endsExpr ht
  have hparen := Token.isMark_of_endsExpr (m := .openParen) ht rfl
  have hfiltering : (readFiltering (fuel + 1) levels).run (⟨.name filter, line⟩ :: t :: rest) =
      .ok (⟨filter, [], []⟩, t :: rest) := by
    rw [readFiltering, run_bind_ok (run_anyName filter line _), run_bind_ok (run_accept_of_not hfailure hparen rest)]
    rfl
  rw [readFilters, run_bind_ok (run_accept rfl rfl _), if_pos rfl, run_bind_ok hfiltering]
  exact run_readFilters ht fuel levels _

/-- A variable. -/
theorem run_readLevel_name {name : Chars} (hname : NamesVariable name) (ht : t.token.endsExpr = true)
    (fuel levels line : Nat) (rest : List Lexeme) :
    (readLevel (fuel + 3) (levels + 1) .operand).run (⟨.name name, line⟩ :: t :: rest) =
      .ok (.var line name, t :: rest) := by
  have hmark {m : Mark} (hm : (Token.mark m).endsExpr = false) := Token.isMark_of_endsExpr ht hm
  rw [readLevel, run_bind_ok (run_readSigned_name hname.2 fuel line _),
    run_bind_ok (run_readPostfix (Token.isFailure_of_endsExpr ht) (hmark rfl) (hmark rfl) (hmark rfl) (fuel + 1) _ rest)]
  exact run_readFilters ht (fuel + 1) (levels + 1) _

/-- A variable with a filter. -/
theorem run_readLevel_filtered {name : Chars} (hname : NamesVariable name) (ht : t.token.endsExpr = true)
    (fuel levels line : Nat) (filter : Chars) (rest : List Lexeme) :
    (readLevel (fuel + 3) (levels + 1) .operand).run
        (⟨.name name, line⟩ :: ⟨.mark .bar, line⟩ :: ⟨.name filter, line⟩ :: t :: rest) =
      .ok (.filter (.var line name) filter [] [], t :: rest) := by
  rw [readLevel, run_bind_ok (run_readSigned_name hname.2 fuel line _),
    run_bind_ok (run_readPostfix rfl rfl rfl rfl (fuel + 1) _ _)]
  exact run_readFilters_filter ht fuel (levels + 1) _ filter line

end

/-! ## Statements -/

/-- Whether a name can be bound, and is not taken for the end of the names that a loop binds. -/
def Bindable (name : Chars) : Prop :=
  (reservedNames.any fun r => r.toList == name) = false ∧ name ≠ "in".toList

section
variable {fuel levels : Nat} {inLoop : Bool} {ts : List Lexeme} {name : Chars}

theorem run_bindableName (h : (reservedNames.any fun r => r.toList == name) = false) (line : Nat) (ts : List Lexeme) :
    bindableName.run (⟨.name name, line⟩ :: ts) = .ok (name, ts) := by
  rw [bindableName, run_bind_ok (run_anyName name line ts), h]
  rfl

theorem run_tagEnd (line : Nat) (ts : List Lexeme) : tagEnd.run (⟨.stop .statement, line⟩ :: ts) = .ok ((), ts) :=
  run_expect rfl rfl ts

/-- An assignment up to its expression. -/
theorem run_readStatement_set (h : (reservedNames.any fun r => r.toList == name) = false) (fuel levels : Nat)
    (inLoop : Bool) (line : Nat) (ts : List Lexeme) :
    (readStatement (fuel + 3) (levels + 1) inLoop).run
        (⟨.name "set".toList, line⟩ :: ⟨.name name, line⟩ :: ⟨.mark .assign, line⟩ :: ts) =
      (.assign (.name name) <$> readExpr (fuel + 1) levels : Reading Stmt).run ts := by
  have hdotted : (readDotted (fuel + 1)).run (⟨.mark .assign, line⟩ :: ts) =
      .ok (false, ⟨.mark .assign, line⟩ :: ts) := by
    rw [readDotted, run_bind_ok (run_accept_of_not rfl rfl ts)]
    rfl
  have hparens : (readParenthesized (fuel + 1)).run (⟨.name name, line⟩ :: ⟨.mark .assign, line⟩ :: ts) =
      .ok (none, ⟨.name name, line⟩ :: ⟨.mark .assign, line⟩ :: ts) := by
    rw [readParenthesized, run_bind_ok (run_accept_of_not rfl rfl _)]
    rfl
  rw [readStatement, run_bind_ok (run_anyName _ line _), if_neg (by decide), if_neg (by decide), if_pos rfl,
    readAssignment, run_bind_ok (run_peek rfl _), run_bind_ok hparens]
  simp only
  rw [run_bind_ok (run_bindableName h line _), run_bind_ok hdotted, run_bind_ok (run_accept_of_not rfl rfl ts),
    if_neg (by simp), run_bind_ok (run_peek rfl ts), if_neg (by intro hstop; cases hstop),
    run_bind_ok (run_expect rfl rfl ts)]
  rfl

/-- The names of a key and of a value in a loop. -/
theorem run_readTarget_pair {key value : Chars} (hkey : Bindable key) (hvalue : Bindable value) (fuel line : Nat)
    (ts : List Lexeme) :
    (readTarget (fuel + 3)).run
        (⟨.name key, line⟩ :: ⟨.mark .comma, line⟩ :: ⟨.name value, line⟩ :: ⟨.name "in".toList, line⟩ :: ts) =
      .ok (.several line [.name key, .name value], ⟨.name "in".toList, line⟩ :: ts) := by
  have hopen {name : Chars} (h : Bindable name) : ¬ ((Token.name name).isMark .closeParen ||
      (Token.name name).isStop .output || (Token.name name).isStop .statement || (Token.name name).isName "in") =
        true := by
    rw [Bool.not_eq_true]
    exact beq_eq_false_iff_ne.2 h.2
  have hsecond : (readTargets (fuel + 1)).run (⟨.name value, line⟩ :: ⟨.name "in".toList, line⟩ :: ts) =
      .ok (([.name value], false), ⟨.name "in".toList, line⟩ :: ts) := by
    rw [readTargets, run_bind_ok (run_peek rfl _), if_neg (hopen hvalue), run_bind_ok (run_accept_of_not rfl rfl _)]
    simp only [Bool.false_eq_true, if_false]
    rw [run_bind_ok (run_map_ok (run_bindableName hvalue.1 line _) _), run_bind_ok (run_accept_of_not rfl rfl ts)]
    rfl
  have hfirst : (readTargets (fuel + 2)).run (⟨.name key, line⟩ :: ⟨.mark .comma, line⟩ :: ⟨.name value, line⟩ ::
      ⟨.name "in".toList, line⟩ :: ts) = .ok (([.name key, .name value], true), ⟨.name "in".toList, line⟩ :: ts) := by
    rw [readTargets, run_bind_ok (run_peek rfl _), if_neg (hopen hkey), run_bind_ok (run_accept_of_not rfl rfl _)]
    simp only [Bool.false_eq_true, if_false]
    rw [run_bind_ok (run_map_ok (run_bindableName hkey.1 line _) _), run_bind_ok (run_accept rfl rfl _), if_pos rfl,
      run_bind_ok hsecond]
    rfl
  rw [readTarget, run_bind_ok (run_peek rfl _), run_bind_ok hfirst]
  rfl

/-- The words that the body of a loop is read up to. -/
def loopEnds : List String := ["endfor", "else"]

/-- A loop over a filtered variable, up to its body. -/
theorem run_readStatement_for {key value : Chars} (hkey : Bindable key) (hvalue : Bindable value)
    (hname : NamesVariable name) (filter : Chars) (fuel : Nat) (hfuel : 12 ≤ fuel) (levels : Nat) (inLoop : Bool)
    (line : Nat) :
    ∃ more : List Stmt → Reading Stmt,
      (∀ ts, (readStatement (fuel + 2) (levels + 2) inLoop).run (⟨.name "for".toList, line⟩ :: ⟨.name key, line⟩ ::
        ⟨.mark .comma, line⟩ :: ⟨.name value, line⟩ :: ⟨.name "in".toList, line⟩ :: ⟨.name name, line⟩ ::
        ⟨.mark .bar, line⟩ :: ⟨.name filter, line⟩ :: ⟨.stop .statement, line⟩ :: ts) =
        (readBody fuel (levels + 1) true loopEnds >>= more).run ts) ∧
      ∀ body line' ts, (more body).run (⟨.name "endfor".toList, line'⟩ :: ts) =
        .ok (.loop (.several line [.name key, .name value]) (.filter (.var line name) filter [] []) none body [],
          ts) := by
  obtain ⟨fuel, rfl⟩ : ∃ m, fuel = m + 12 := ⟨fuel - 12, by omega⟩
  have hnot : (Token.name name).isName "not" = false := beq_eq_false_iff_ne.2 hname.1
  have hsource (ts : List Lexeme) : (readLevel (fuel + 12) (levels + 1) .either).run (⟨.name name, line⟩ ::
      ⟨.mark .bar, line⟩ :: ⟨.name filter, line⟩ :: ⟨.stop .statement, line⟩ :: ts) =
        .ok (.filter (.var line name) filter [] [], ⟨.stop .statement, line⟩ :: ts) :=
    run_readLevel_of_operand rfl hnot
      (run_readLevel_filtered (t := ⟨.stop .statement, line⟩) hname rfl (fuel + 1) levels line filter ts) rfl .either
  refine ⟨fun body => do
    if ← accept (Token.isName "else") then
      tagEnd
      let otherwise ← readBody (fuel + 12) (levels + 1) inLoop ["endfor"]
      let _ ← take
      pure (.loop (.several line [.name key, .name value]) (.filter (.var line name) filter [] []) none body otherwise)
    else
      let _ ← take
      pure (.loop (.several line [.name key, .name value]) (.filter (.var line name) filter [] []) none body []),
    fun ts => ?_, fun body line' ts => ?_⟩
  · rw [readStatement, run_bind_ok (run_anyName _ line _), if_pos rfl, readLoop,
      run_bind_ok (run_readTarget_pair hkey hvalue (fuel + 9) line _), run_bind_ok (run_expect rfl rfl _),
      run_bind_ok (hsource _), run_bind_ok (run_accept_of_not rfl rfl _)]
    simp only [Bool.false_eq_true, if_false]
    rw [pure_bind, run_bind_ok (run_tagEnd line ts)]
    rfl
  · rw [run_bind_ok (run_accept_of_not rfl rfl ts)]
    rfl

end

/-! ## Bodies -/

/-- What a body of tokens comes to with enough fuel: statements and the tokens that are left, or a failure. -/
def Yields (need levels : Nat) (inLoop : Bool) (ends : List String) (ts : List Lexeme)
    (result : Except RenderErrorKind (List Stmt × List Lexeme)) : Prop :=
  ∀ fuel, need ≤ fuel → (readBody fuel levels inLoop ends).run ts = result

/-- A result with statements in front. -/
def withFirst (stmts : List Stmt) (result : Except RenderErrorKind (List Stmt × List Lexeme)) :
    Except RenderErrorKind (List Stmt × List Lexeme) :=
  result.map fun r => (stmts ++ r.1, r.2)

theorem withFirst_nil (result : Except RenderErrorKind (List Stmt × List Lexeme)) :
    withFirst [] result = result := by cases result <;> rfl

theorem withFirst_append (stmts stmts' : List Stmt) (result : Except RenderErrorKind (List Stmt × List Lexeme)) :
    withFirst (stmts ++ stmts') result = withFirst stmts (withFirst stmts' result) := by
  cases result with
  | error kind => rfl
  | ok r => exact congrArg (fun all => Except.ok (all, r.2)) (List.append_assoc ..)

theorem withFirst_cons (stmt : Stmt) (stmts : List Stmt)
    (result : Except RenderErrorKind (List Stmt × List Lexeme)) :
    withFirst (stmt :: stmts) result = withFirst [stmt] (withFirst stmts result) := withFirst_append [stmt] ..

/-- The statements that write a text: one, or none if it is empty. -/
def dataStmts (s : Chars) : List Stmt := if s = [] then [] else [.data s]

/-- Tokens on one line. -/
def lexemesAt (line : Nat) (ts : List Token) : List Lexeme := ts.map fun t => ⟨t, line⟩

namespace Yields

variable {need levels : Nat} {inLoop : Bool} {ends : List String} {ts : List Lexeme}
  {result : Except RenderErrorKind (List Stmt × List Lexeme)}

theorem mono {need' : Nat} (h : Yields need levels inLoop ends ts result) (hneed : need ≤ need') :
    Yields need' levels inLoop ends ts result := fun fuel hfuel => h fuel (Nat.le_trans hneed hfuel)

/-- The end of the template. -/
theorem nil (levels : Nat) (inLoop : Bool) (ends : List String) :
    Yields 1 levels inLoop ends [] (.ok ([], [])) := by
  intro fuel hfuel
  obtain ⟨fuel, rfl⟩ : ∃ m, fuel = m + 1 := ⟨fuel - 1, by omega⟩
  rw [readBody]
  rfl

/-- What follows a statement is read like the rest of the body. -/
theorem run_more (h : Yields need levels inLoop ends ts result) (stmt : Stmt) {fuel : Nat} (hfuel : need ≤ fuel) :
    (do
      let rest ← readBody fuel levels inLoop ends
      pure (stmt :: rest) : Reading (List Stmt)).run ts = withFirst [stmt] result := by
  rw [run_bind, h fuel hfuel]
  cases result <;> rfl

theorem data (h : Yields need levels inLoop ends ts result) (s : Chars) (line : Nat) :
    Yields (need + (dataTokens line s).length) levels inLoop ends (dataTokens line s ++ ts)
      (withFirst (dataStmts s) result) := by
  by_cases hs : s = []
  · subst hs
    rw [show dataStmts [] = [] from rfl, withFirst_nil]
    exact h
  · rw [dataTokens, dataStmts, if_neg hs, if_neg hs]
    intro fuel hfuel
    rw [List.length_singleton] at hfuel
    obtain ⟨fuel, rfl⟩ : ∃ m, fuel = m + 1 := ⟨fuel - 1, by omega⟩
    rw [← h.run_more (.data s) (show need ≤ fuel by omega), readBody]
    rfl

/-- A statement tag, unless it ends the body. -/
theorem run_readBody_statement {t : Lexeme} (ht : t.token.isFailure = false)
    (hends : (ends.any fun word => t.token.isName word) = false) (fuel line : Nat) :
    (readBody (fuel + 1) levels inLoop ends).run (⟨.start .statement, line⟩ :: t :: ts) =
      (do
        let stmt ← readStatement fuel levels inLoop
        tagEnd
        let rest ← readBody fuel levels inLoop ends
        pure (stmt :: rest) : Reading (List Stmt)).run (t :: ts) := by
  have hbody : (readBody (fuel + 1) levels inLoop ends).run (⟨.start .statement, line⟩ :: t :: ts) =
      (do
        let t := (← peek).token
        if ends.any fun word => t.isName word then pure []
        else
          let stmt ← readStatement fuel levels inLoop
          tagEnd
          let rest ← readBody fuel levels inLoop ends
          pure (stmt :: rest) : Reading (List Stmt)).run (t :: ts) := by
    rw [readBody]
    rfl
  rw [hbody, run_bind_ok (run_peek ht ts)]
  simp only [hends, Bool.false_eq_true, if_false]

theorem run_statement {t : Lexeme} {rest : List Lexeme} {stmt : Stmt} {fuel line line' : Nat}
    (h : Yields need levels inLoop ends rest result) (hneed : need ≤ fuel) (ht : t.token.isFailure = false)
    (hends : (ends.any fun word => t.token.isName word) = false)
    (hstmt : (readStatement fuel levels inLoop).run (t :: ts) = .ok (stmt, ⟨.stop .statement, line'⟩ :: rest)) :
    (readBody (fuel + 1) levels inLoop ends).run (⟨.start .statement, line⟩ :: t :: ts) =
      withFirst [stmt] result := by
  rw [run_readBody_statement ht hends, run_bind_ok hstmt, run_bind_ok (run_tagEnd line' rest), h.run_more _ hneed]

theorem run_statement_refused {t : Lexeme} {kind : RenderErrorKind} {fuel : Nat} (line : Nat)
    (ht : t.token.isFailure = false) (hends : (ends.any fun word => t.token.isName word) = false)
    (hstmt : (readStatement fuel levels inLoop).run (t :: ts) = .error kind) :
    (readBody (fuel + 1) levels inLoop ends).run (⟨.start .statement, line⟩ :: t :: ts) = .error kind := by
  rw [run_readBody_statement ht hends, run_bind_error hstmt]

/-- The tokens of a filtered variable in an output tag. -/
def outputLexemes (line : Nat) (name filter : Chars) : List Lexeme :=
  lexemesAt line [.start .output, .name name, .mark .bar, .name filter, .stop .output]

/-- A filtered variable in an output tag. -/
theorem output (h : Yields need levels inLoop ends ts result) (hlevels : 2 ≤ levels) (hneed : 14 ≤ need)
    {name : Chars} (hname : NamesVariable name) (filter : Chars) (line : Nat) :
    Yields (need + 1) levels inLoop ends (outputLexemes line name filter ++ ts)
      (withFirst [.output (.filter (.var line name) filter [] [])] result) := by
  intro fuel hfuel
  obtain ⟨fuel, rfl⟩ : ∃ m, fuel = m + 13 + 1 := ⟨fuel - 14, by omega⟩
  obtain ⟨levels, rfl⟩ : ∃ m, levels = m + 1 + 1 := ⟨levels - 2, by omega⟩
  have hbody : (readBody (fuel + 13 + 1) (levels + 2) inLoop ends).run (outputLexemes line name filter ++ ts) =
      (do
        let e ← readExpr (fuel + 13) (levels + 2)
        expect (Token.isStop .output)
        let rest ← readBody (fuel + 13) (levels + 2) inLoop ends
        pure (.output e :: rest) : Reading (List Stmt)).run
          (⟨.name name, line⟩ :: ⟨.mark .bar, line⟩ :: ⟨.name filter, line⟩ :: ⟨.stop .output, line⟩ :: ts) := by
    rw [readBody]
    rfl
  have hnot : (Token.name name).isName "not" = false := beq_eq_false_iff_ne.2 hname.1
  have hoperand := run_readLevel_filtered (t := ⟨.stop .output, line⟩) hname rfl fuel levels line filter ts
  have hexpr := run_readExpr_of_operand rfl hnot hoperand rfl
  rw [hbody, run_bind_ok hexpr, run_bind_ok (run_expect rfl rfl ts), h.run_more _ (by omega)]

theorem any_isName_eq_false {word : String} (h : word ∉ ends) :
    (ends.any fun w => (Token.name word.toList).isName w) = false := by
  rw [List.any_eq_false]
  intro w hw hword
  rw [Token.isName, beq_iff_eq, String.toList_inj] at hword
  exact h (hword ▸ hw)

/-- The tokens of an assignment of a variable. -/
def assignLexemes (line : Nat) (target name : Chars) : List Lexeme :=
  lexemesAt line [.start .statement, .name "set".toList, .name target, .mark .assign, .name name, .stop .statement]

/-- An assignment of a variable. -/
theorem assign (h : Yields need levels inLoop ends ts result) (hlevels : 3 ≤ levels) (hneed : 15 ≤ need)
    (hends : "set" ∉ ends) {target name : Chars} (htarget : Bindable target) (hname : NamesVariable name)
    (line : Nat) :
    Yields (need + 1) levels inLoop ends (assignLexemes line target name ++ ts)
      (withFirst [.assign (.name target) (.var line name)] result) := by
  intro fuel hfuel
  obtain ⟨fuel, rfl⟩ : ∃ m, fuel = m + 12 + 3 + 1 := ⟨fuel - 16, by omega⟩
  obtain ⟨levels, rfl⟩ : ∃ m, levels = m + 3 := ⟨levels - 3, by omega⟩
  have hnot : (Token.name name).isName "not" = false := beq_eq_false_iff_ne.2 hname.1
  have hoperand := run_readLevel_name (t := ⟨.stop .statement, line⟩) hname rfl fuel levels line ts
  have hexpr := run_readExpr_of_operand rfl hnot hoperand rfl
  have hstmt : (readStatement (fuel + 12 + 3) (levels + 3) inLoop).run (⟨.name "set".toList, line⟩ ::
      ⟨.name target, line⟩ :: ⟨.mark .assign, line⟩ :: ⟨.name name, line⟩ :: ⟨.stop .statement, line⟩ :: ts) =
      .ok (.assign (.name target) (.var line name), ⟨.stop .statement, line⟩ :: ts) := by
    rw [run_readStatement_set htarget.1]
    exact run_map_ok hexpr _
  exact h.run_statement (by omega) rfl (any_isName_eq_false hends) hstmt

/-- An assignment of a variable needs three levels. -/
theorem assign_refused (hends : "set" ∉ ends) {target name : Chars} (htarget : Bindable target)
    (hname : NamesVariable name) (line : Nat) (ts : List Lexeme) :
    Yields 4 2 inLoop ends (assignLexemes line target name ++ ts) (.error .syntaxError) := by
  intro fuel hfuel
  obtain ⟨fuel, rfl⟩ : ∃ m, fuel = m + 3 + 1 := ⟨fuel - 4, by omega⟩
  have hnot : (Token.name name).isName "not" = false := beq_eq_false_iff_ne.2 hname.1
  have hstmt : (readStatement (fuel + 3) 2 inLoop).run (⟨.name "set".toList, line⟩ :: ⟨.name target, line⟩ ::
      ⟨.mark .assign, line⟩ :: ⟨.name name, line⟩ :: ⟨.stop .statement, line⟩ :: ts) = .error .syntaxError := by
    rw [run_readStatement_set htarget.1]
    exact run_map_error (run_readExpr_one rfl hnot rfl (fuel + 1)) _
  exact run_statement_refused line rfl (any_isName_eq_false hends) hstmt

/-- The tokens of a loop over a filtered variable, up to its body. -/
def loopLexemes (line : Nat) (key value name filter : Chars) : List Lexeme :=
  lexemesAt line [.start .statement, .name "for".toList, .name key, .mark .comma, .name value, .name "in".toList,
    .name name, .mark .bar, .name filter, .stop .statement]

/-- The tokens of the end of a loop. -/
def endLexemes (line : Nat) : List Lexeme :=
  lexemesAt line [.start .statement, .name "endfor".toList, .stop .statement]

section
variable {key value name : Chars}

/-- A body up to the end of its loop. -/
theorem ended (levels line : Nat) (inLoop : Bool) (ts : List Lexeme) :
    Yields 1 levels inLoop loopEnds (endLexemes line ++ ts)
      (.ok ([], ⟨.name "endfor".toList, line⟩ :: ⟨.stop .statement, line⟩ :: ts)) := by
  intro fuel hfuel
  obtain ⟨fuel, rfl⟩ : ∃ m, fuel = m + 1 := ⟨fuel - 1, by omega⟩
  rw [readBody]
  rfl

/-- A loop whose body ends. -/
theorem loop {body : List Stmt} {line' : Nat} {rest : List Lexeme}
    (hbody : Yields need (levels + 1) true loopEnds ts
      (.ok (body, ⟨.name "endfor".toList, line'⟩ :: ⟨.stop .statement, line'⟩ :: rest)))
    (h : Yields need (levels + 2) inLoop ends rest result) (hneed : 12 ≤ need) (hends : "for" ∉ ends)
    (hkey : Bindable key) (hvalue : Bindable value) (hname : NamesVariable name) (filter : Chars) (line : Nat) :
    Yields (need + 3) (levels + 2) inLoop ends (loopLexemes line key value name filter ++ ts)
      (withFirst [.loop (.several line [.name key, .name value]) (.filter (.var line name) filter [] []) none body []]
        result) := by
  intro fuel hfuel
  obtain ⟨fuel, rfl⟩ : ∃ m, fuel = m + 2 + 1 := ⟨fuel - 3, by omega⟩
  obtain ⟨more, hstmt, hmore⟩ := run_readStatement_for hkey hvalue hname filter fuel (by omega) levels inLoop line
  have hloop := (hstmt ts).trans ((run_bind_ok (hbody fuel (by omega)) more).trans (hmore body line' _))
  exact h.run_statement (by omega) rfl (any_isName_eq_false hends) hloop

/-- A loop whose body is refused. -/
theorem loop_refused {kind : RenderErrorKind} (hbody : Yields need (levels + 1) true loopEnds ts (.error kind))
    (hneed : 12 ≤ need) (hends : "for" ∉ ends) (hkey : Bindable key) (hvalue : Bindable value)
    (hname : NamesVariable name) (filter : Chars) (line : Nat) :
    Yields (need + 3) (levels + 2) inLoop ends (loopLexemes line key value name filter ++ ts) (.error kind) := by
  intro fuel hfuel
  obtain ⟨fuel, rfl⟩ : ∃ m, fuel = m + 2 + 1 := ⟨fuel - 3, by omega⟩
  obtain ⟨more, hstmt, -⟩ := run_readStatement_for hkey hvalue hname filter fuel (by omega) levels inLoop line
  have hloop := (hstmt ts).trans (run_bind_error (hbody fuel (by omega)) more)
  exact run_statement_refused line rfl (any_isName_eq_false hends) hloop

end

end Yields

/-! ## Templates -/

/-- What a template is read as, if its tokens come to statements with no more fuel than there is. -/
theorem read_of_yields {source : Chars} {need : Nat} {result : Except RenderErrorKind (List Stmt × List Lexeme)}
    (h : Yields need nestingLimit false [] (tokens source) result)
    (hneed : need ≤ 16 * (tokens source).length + 32) : read source = result.map Prod.fst := by
  rw [read]
  simp only [h _ hneed]

/-- Tokens of text are statements that write it. -/
theorem read_of_data {source : Chars} {pieces : List (Chars × Nat)}
    (h : tokens source = pieces.map fun p => ⟨.data p.1, p.2⟩) :
    read source = .ok (pieces.map fun p => .data p.1) := by
  have hbody : Yields (pieces.length + 1) nestingLimit false [] (tokens source)
      (.ok (pieces.map fun p => .data p.1, [])) := by
    rw [h]
    clear h
    induction pieces with
    | nil => exact Yields.nil nestingLimit false []
    | cons p pieces ih =>
      intro fuel hfuel
      obtain ⟨fuel, rfl⟩ : ∃ m, fuel = m + 1 := ⟨fuel - 1, by omega⟩
      have hmore := ih.run_more (.data p.1) (show pieces.length + 1 ≤ fuel by simp at hfuel; omega)
      refine Eq.trans ?_ hmore
      rw [List.map_cons, readBody]
      rfl
  rw [read_of_yields hbody (by rw [h, List.length_map]; omega)]
  rfl

end ViewBridge.Template
