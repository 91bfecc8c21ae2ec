import ViewBridge.Proofs.Call.Scanning
import ViewBridge.Proofs.Template.Reading
/-!
# Reading calls

Whatever the reader of expressions reads, it opens no bracket that it does not close. So the arguments of a call end
at the parenthesis that closes the call, and what stands behind that is read as it would be behind any other operand.

Results:
* `evenReading`: every reader of expressions closes what it opens.
* `behind_of_readArguments`: the arguments of a call are read up to the parenthesis that closes it.
* `read_call`: a call in parentheses in an output tag is refused, or read as that call.
-/
namespace ViewBridge.Template

open Reading

/-! ## Readings that open and close brackets -/

section
variable {α β : Type} {all : Bool}

/-- A reading, of certain tokens, that starts inside of `i` of the brackets that are counted and ends inside of `j` of
them. -/
def TurnsAt (all : Bool) (i j : Nat) (x : Reading α) (ts : List Lexeme) : Prop :=
  ∀ ⦃a ts'⦄, x.run ts = .ok (a, ts') → ∀ n, behind all (n + i) ts = behind all (n + j) ts'

/-- A reading that always starts inside of `i` brackets and ends inside of `j`. -/
def Turns (all : Bool) (i j : Nat) (x : Reading α) : Prop := ∀ ts, TurnsAt all i j x ts

/-- A kind of tokens that lead from inside of one bracket to inside of `k`. -/
def Takes (all : Bool) (k : Nat) (wanted : Token → Bool) : Prop :=
  ∀ l, wanted l.token = true → ∀ n ts, behind all (n + 1) (l :: ts) = behind all (n + k) ts

theorem takes_openParen : Takes all 2 (Token.isMark .openParen) := by
  rintro ⟨token, line⟩ h n ts
  cases token with
  | mark m =>
    obtain rfl : Mark.openParen = m := beq_iff_eq.1 h
    rfl
  | _ => cases h

theorem takes_closeParen : Takes all 0 (Token.isMark .closeParen) := by
  rintro ⟨token, line⟩ h n ts
  cases token with
  | mark m =>
    obtain rfl : Mark.closeParen = m := beq_iff_eq.1 h
    rfl
  | _ => cases h

/-- How many of one bracket and an inner one there are behind a token that opens the inner one, if it is no
parenthesis. -/
def opened (all : Bool) : Nat := if all then 2 else 1

/-- How many there are behind a token that closes such a bracket. -/
def closed (all : Bool) : Nat := if all then 0 else 1

theorem takes_opening {m : Mark} (h : m = .openBracket ∨ m = .openBrace) : Takes all (opened all) (Token.isMark m) := by
  rintro ⟨token, line⟩ hmark n ts
  cases token with
  | mark m' =>
    obtain rfl : m = m' := beq_iff_eq.1 hmark
    rcases h with rfl | rfl <;> cases all <;> rfl
  | _ => cases hmark

theorem takes_closing {m : Mark} (h : m = .closeBracket ∨ m = .closeBrace) : Takes all (closed all) (Token.isMark m) := by
  rintro ⟨token, line⟩ hmark n ts
  cases token with
  | mark m' =>
    obtain rfl : m = m' := beq_iff_eq.1 hmark
    rcases h with rfl | rfl <;> cases all <;> rfl
  | _ => cases hmark

theorem takes_mark {m : Mark} (h : (Token.mark m).isPlain all = true) : Takes all 1 (Token.isMark m) := by
  rintro ⟨token, line⟩ hmark n ts
  cases token with
  | mark m' =>
    obtain rfl : m = m' := beq_iff_eq.1 hmark
    exact behind_of_isPlain h n ts
  | _ => cases hmark

theorem takes_name (s : String) : Takes all 1 (Token.isName s) := by
  rintro ⟨token, line⟩ h n ts
  cases token with
  | name => rfl
  | _ => cases h

namespace Reading

theorem eq_of_run_peek {l : Lexeme} {ts ts' : List Lexeme} (h : peek.run ts = .ok (l, ts')) :
    ∃ rest, ts = l :: rest ∧ ts' = ts := by
  cases ts with
  | nil => cases h
  | cons l' rest =>
    obtain ⟨token, line⟩ := l'
    cases token with
    | failure => cases h
    | _ =>
      obtain ⟨rfl, rfl⟩ := Prod.mk.inj (Except.ok.inj h)
      exact ⟨rest, rfl, rfl⟩

theorem eq_of_run_bind {x : Reading α} {f : α → Reading β} {ts ts' : List Lexeme} {b : β}
    (h : (x >>= f).run ts = .ok (b, ts')) :
    ∃ a mid, x.run ts = .ok (a, mid) ∧ (f a).run mid = .ok (b, ts') := by
  rw [run_bind] at h
  cases hrun : x.run ts with
  | error => rw [hrun] at h; cases h
  | ok r =>
    rw [hrun] at h
    exact ⟨r.1, r.2, rfl, h⟩

theorem eq_of_run_take {l : Lexeme} {ts ts' : List Lexeme} (h : take.run ts = .ok (l, ts')) : ts = l :: ts' := by
  obtain ⟨l', mid, hpeek, hrest⟩ := eq_of_run_bind h
  obtain ⟨rest, rfl, rfl⟩ := eq_of_run_peek hpeek
  obtain ⟨rfl, rfl⟩ := Prod.mk.inj (Except.ok.inj hrest)
  rfl

theorem eq_of_run_accept {wanted : Token → Bool} {b : Bool} {ts ts' : List Lexeme}
    (h : (accept wanted).run ts = .ok (b, ts')) :
    ∃ l rest, ts = l :: rest ∧ (b = true ∧ wanted l.token = true ∧ ts' = rest ∨ b = false ∧ ts' = l :: rest) := by
  obtain ⟨l, mid, hpeek, hrest⟩ := eq_of_run_bind h
  obtain ⟨rest, rfl, rfl⟩ := eq_of_run_peek hpeek
  split at hrest
  · rename_i hwanted
    obtain ⟨rfl, rfl⟩ := Prod.mk.inj (Except.ok.inj hrest)
    exact ⟨l, rest, rfl, .inl ⟨rfl, hwanted, rfl⟩⟩
  · obtain ⟨rfl, rfl⟩ := Prod.mk.inj (Except.ok.inj hrest)
    exact ⟨l, rest, rfl, .inr ⟨rfl, rfl⟩⟩

end Reading

/-- The next token is taken, and what it does to the brackets is known. -/
theorem TurnsAt.take_bind {j k : Nat} {f : Lexeme → Reading α} {l : Lexeme} {ts : List Lexeme}
    (h : ∀ n, behind all (n + 1) (l :: ts) = behind all (n + k) ts) (hf : Turns all k j (f l)) :
    TurnsAt all 1 j (take >>= f) (l :: ts) := by
  intro a ts' hrun n
  obtain ⟨l', mid, htake, hrest⟩ := eq_of_run_bind hrun
  obtain ⟨rfl, rfl⟩ := List.cons.inj (eq_of_run_take htake)
  exact (h n).trans (hf _ hrest n)

theorem TurnsAt.take_refused {i j : Nat} {f : Lexeme → Reading α} {l : Lexeme} (h : f l = malformed)
    (ts : List Lexeme) : TurnsAt all i j (take >>= f) (l :: ts) := by
  intro a ts' hrun
  obtain ⟨l', mid, htake, hrest⟩ := eq_of_run_bind hrun
  obtain ⟨rfl, rfl⟩ := List.cons.inj (eq_of_run_take htake)
  rw [h] at hrest
  cases hrest

namespace Turns

variable {i j k : Nat} {x y : Reading α} {wanted : Token → Bool}

theorem pure (i : Nat) (a : α) : Turns all i i (pure a : Reading α) := by
  intro ts b ts' h n
  obtain ⟨-, rfl⟩ := Prod.mk.inj (Except.ok.inj h)
  rfl

theorem malformed (i j : Nat) : Turns all i j (malformed : Reading α) := fun _ _ _ h => nomatch h

theorem bind {f : α → Reading β} (hx : Turns all i j x) (hf : ∀ a, Turns all j k (f a)) : Turns all i k (x >>= f) := by
  intro ts b ts' h n
  obtain ⟨a, mid, hrun, hrest⟩ := eq_of_run_bind h
  exact (hx ts hrun n).trans (hf a mid hrest n)

/-- One more bracket around a reading. -/
theorem inside (hx : Turns all i j x) : Turns all (i + 1) (j + 1) x := by
  intro ts a ts' h n
  have hinside := hx ts h (n + 1)
  rwa [Nat.add_right_comm, Nat.add_right_comm n 1 j] at hinside

/-- What is read up to the end of an inner bracket, from the start of that bracket. -/
theorem enclose (hx : Turns all 1 (closed all) x) : Turns all (opened all) 1 x := by
  cases all with
  | true => exact hx.inside
  | false => exact hx

theorem map (hx : Turns all i j x) (f : α → β) : Turns all i j (f <$> x) := by
  rw [map_eq_pure_bind]
  exact hx.bind fun a => .pure j (f a)

theorem ite {c : Prop} [Decidable c] (hx : Turns all i j x) (hy : Turns all i j y) :
    Turns all i j (if c then x else y) := by
  split
  · exact hx
  · exact hy

/-- A reading that goes on in the same way whatever was chosen. -/
theorem ite_bind {c : Prop} [Decidable c] {f : α → Reading β} (hx : Turns all i j x) (hy : Turns all i j y)
    (hf : ∀ a, Turns all j k (f a)) : Turns all i k (if c then x >>= f else y >>= f) :=
  ite (hx.bind hf) (hy.bind hf)

/-- A reading that may be left out. -/
theorem optional (b : Bool) {x : Reading Unit} {f : Unit → Reading β} (hx : Turns all i i x)
    (hf : ∀ u, Turns all i k (f u)) : Turns all i k (if b = true then x >>= f else f ()) :=
  ite (hx.bind hf) (hf ())

/-- Looking at the next token takes nothing. -/
theorem peek_bind {f : Lexeme → Reading α} (hf : ∀ l ts, TurnsAt all i j (f l) (l :: ts)) : Turns all i j (peek >>= f) := by
  intro ts a ts' h
  obtain ⟨l, mid, hpeek, hrest⟩ := eq_of_run_bind h
  obtain ⟨rest, rfl, rfl⟩ := eq_of_run_peek hpeek
  exact hf l rest hrest

theorem take_bind {f : Lexeme → Reading α} (hf : ∀ l ts, TurnsAt all 1 j (take >>= f) (l :: ts)) :
    Turns all 1 j (take >>= f) := by
  intro ts a ts' h
  obtain ⟨l, mid, htake, -⟩ := eq_of_run_bind h
  obtain rfl := eq_of_run_take htake
  exact hf l mid h

theorem accept_bind {f : Bool → Reading α} (hw : Takes all k wanted) (htrue : Turns all k j (f true))
    (hfalse : Turns all 1 j (f false)) : Turns all 1 j (accept wanted >>= f) := by
  intro ts a ts' h n
  obtain ⟨b, mid, haccept, hrest⟩ := eq_of_run_bind h
  obtain ⟨l, rest, rfl, ⟨rfl, hwanted, rfl⟩ | ⟨rfl, rfl⟩⟩ := eq_of_run_accept haccept
  · exact (hw l hwanted n mid).trans (htrue mid hrest n)
  · exact hfalse _ hrest n

/-- A choice by the next token. -/
theorem accept_ite (hw : Takes all k wanted) (hx : Turns all k j x) (hy : Turns all 1 j y) :
    Turns all 1 j (do if ← Reading.accept wanted then x else y) := accept_bind hw hx hy

theorem accept (hw : Takes all 1 wanted) : Turns all 1 1 (accept wanted) := by
  have hbind := accept_bind hw (f := fun b => Pure.pure b) (.pure 1 true) (.pure 1 false)
  rwa [bind_pure] at hbind

theorem expect (hw : Takes all k wanted) : Turns all 1 k (expect wanted) :=
  accept_bind hw (.pure k ()) (.malformed 1 k)

theorem comma : Turns all 1 1 (Reading.expect (Token.isMark .comma)) := expect (takes_mark rfl)

theorem anyName : Turns all 1 1 anyName := by
  refine take_bind fun l ts => ?_
  obtain ⟨token, line⟩ := l
  cases token with
  | name s => exact .take_bind (fun n => rfl) (.pure 1 s)
  | _ => exact .take_refused rfl ts

end Turns

end

/-! ## The readers of expressions -/

/-- What the readers of expressions do to brackets with so much fuel: those of what stands in a bracket end behind the
end of the bracket, and all others inside of the same brackets. -/
structure EvenReading (all : Bool) (fuel : Nat) : Prop where
  expr : ∀ levels, Turns all 1 1 (readExpr fuel levels)
  choice : ∀ levels, Turns all 1 1 (readChoice fuel levels)
  conditions : ∀ levels e, Turns all 1 1 (readConditions fuel levels e)
  level : ∀ levels l, Turns all 1 1 (readLevel fuel levels l)
  joined : ∀ levels l e, Turns all 1 1 (readJoined fuel levels l e)
  links : ∀ levels, Turns all 1 1 (readLinks fuel levels)
  signed : ∀ levels, Turns all 1 1 (readSigned fuel levels)
  postfix' : ∀ levels e, Turns all 1 1 (readPostfix fuel levels e)
  index : ∀ levels e, Turns all 1 (closed all) (readIndex fuel levels e)
  filters : ∀ levels e, Turns all 1 1 (readFilters fuel levels e)
  filtering : ∀ levels, Turns all 1 1 (readFiltering fuel levels)
  testArguments : ∀ levels line, Turns all 1 1 (readTestArguments fuel levels line)
  arguments : ∀ levels first named, Turns all 1 0 (readArguments fuel levels first named)
  items : ∀ levels first closing k, Takes all k (Token.isMark closing) → Turns all 1 k (readItems fuel levels first closing)
  members : ∀ levels first, Turns all 1 (closed all) (readMembers fuel levels first)
  primary : ∀ levels, Turns all 1 1 (readPrimary fuel levels)

theorem isPlain_of_join? (all : Bool) {l : Level} {t : Token} {f : Expr → Expr → Expr} (h : l.join? t = some f) :
    t.isPlain all = true := by
  cases t with
  | mark m =>
    obtain ⟨op, hop, -⟩ := Option.map_eq_some_iff.1 h
    unfold Level.operator? at hop
    split at hop <;> first | rfl | cases hop
  | name => rfl
  | _ => cases h

theorem isPlain_of_comparison? (all : Bool) {t : Token} {op : Operator} (h : comparison? t = some op) :
    t.isPlain all = true := by
  unfold comparison? at h
  split at h <;> first | rfl | cases h

theorem isPlain_of_isName (all : Bool) {t : Token} {s : String} (h : t.isName s = true) : t.isPlain all = true := by
  cases t with
  | name => rfl
  | _ => cases h

namespace EvenReading

variable {all : Bool} {fuel : Nat}

theorem readChoice (h : EvenReading all fuel) (levels : Nat) : Turns all 1 1 (readChoice (fuel + 1) levels) := by
  rw [Template.readChoice]
  exact (h.level levels .either).bind fun e => h.conditions levels e

theorem readConditions (h : EvenReading all fuel) (levels : Nat) (e : Expr) :
    Turns all 1 1 (readConditions (fuel + 1) levels e) := by
  rw [Template.readConditions]
  refine .accept_ite (takes_name "if") ((h.level levels .either).bind fun test => ?_) (.pure 1 e)
  refine .accept_ite (takes_name "else") ((h.choice levels).bind fun no => ?_) (h.conditions levels _)
  exact h.conditions levels _

theorem readLevel (h : EvenReading all fuel) (levels : Nat) (l : Level) :
    Turns all 1 1 (readLevel (fuel + 1) levels l) := by
  cases l with
  | negation =>
    rw [Template.readLevel]
    exact .accept_ite (takes_name "not") ((h.level levels .negation).map _) (h.level levels .comparison)
  | comparison =>
    rw [Template.readLevel]
    exact (h.level levels .sum).bind fun a => (h.links levels).bind fun links => .pure 1 _
  | operand =>
    rw [Template.readLevel]
    exact (h.signed levels).bind fun e => (h.postfix' levels e).bind fun e => h.filters levels e
  | _ =>
    rw [Template.readLevel]
    · exact (h.level levels _).bind fun a => h.joined levels _ a
    all_goals
      intro h
      cases h

theorem readJoined (h : EvenReading all fuel) (levels : Nat) (l : Level) (a : Expr) :
    Turns all 1 1 (readJoined (fuel + 1) levels l a) := by
  rw [Template.readJoined]
  refine .peek_bind fun t ts => ?_
  cases hjoin : l.join? t.token with
  | none => exact Turns.pure 1 a _
  | some f =>
    have hplain := isPlain_of_join? all hjoin
    exact .take_bind (fun n => behind_of_isPlain hplain n ts)
      ((h.level levels l.tighter).bind fun b => h.joined levels l (f a b))

theorem readLinks (h : EvenReading all fuel) (levels : Nat) : Turns all 1 1 (readLinks (fuel + 1) levels) := by
  rw [Template.readLinks]
  refine .peek_bind fun t ts => ?_
  have hlink (op : Operator × Bool) : Turns all 1 1 (do
      let e ← Template.readLevel fuel levels .sum
      let links ← Template.readLinks fuel levels
      pure ((op, e) :: links)) :=
    (h.level levels .sum).bind fun e => (h.links levels).bind fun links => .pure 1 _
  dsimp only
  cases hcomparison : comparison? t.token with
  | some op =>
    have hplain := isPlain_of_comparison? all hcomparison
    exact .take_bind (fun n => behind_of_isPlain hplain n ts) (hlink (op, false))
  | none =>
    dsimp only
    split
    · rename_i hnot
      have hplain := isPlain_of_isName all hnot
      exact .take_bind (fun n => behind_of_isPlain hplain n ts)
        ((Turns.expect (takes_name "in")).bind fun _ => hlink (.within, true))
    · exact Turns.pure 1 _ _

theorem readSigned (h : EvenReading all fuel) (levels : Nat) : Turns all 1 1 (readSigned (fuel + 1) levels) := by
  rw [Template.readSigned]
  exact .accept_ite (takes_mark rfl) ((h.signed levels).map _) (h.primary levels)

theorem readPostfix (h : EvenReading all fuel) (levels : Nat) (e : Expr) :
    Turns all 1 1 (readPostfix (fuel + 1) levels e) := by
  rw [Template.readPostfix]
  refine .accept_ite (takes_mark rfl) (Turns.anyName.bind fun name => h.postfix' levels _) ?_
  refine .accept_ite (takes_opening (.inl rfl)) ((h.index levels e).enclose.bind fun index => h.postfix' levels index) ?_
  have harguments := (h.arguments levels true false).inside
  exact .accept_ite takes_openParen (harguments.bind fun args => h.postfix' levels _) (.pure 1 e)

theorem readIndex (h : EvenReading all fuel) (levels : Nat) (e : Expr) :
    Turns all 1 (closed all) (readIndex (fuel + 1) levels e) := by
  have hclosing : Takes all (closed all) (Token.isMark .closeBracket) := takes_closing (.inl rfl)
  rw [Template.readIndex]
  dsimp only
  refine .peek_bind fun t ts => Turns.ite_bind (.pure 1 _) (h.expr levels) (fun start => ?_) _
  refine .accept_ite (takes_mark rfl) ?_ ((Turns.expect hclosing).bind fun _ => .pure _ _)
  refine .peek_bind fun t ts => Turns.ite_bind (.pure 1 _) (h.expr levels) (fun stop => ?_) _
  have hend (step : Expr) : Turns all 1 (closed all) (do
      expect (Token.isMark .closeBracket)
      pure (Expr.slice e start stop step)) := (Turns.expect hclosing).bind fun _ => .pure _ _
  refine .accept_ite (takes_mark rfl) ?_ ((Turns.pure 1 _).bind hend)
  exact .peek_bind fun t ts => Turns.ite_bind (.pure 1 _) (h.expr levels) hend _

theorem readFilters (h : EvenReading all fuel) (levels : Nat) (e : Expr) :
    Turns all 1 1 (readFilters (fuel + 1) levels e) := by
  rw [Template.readFilters]
  refine .accept_ite (takes_mark rfl) ((h.filtering levels).bind fun f => h.filters levels _) ?_
  refine .accept_ite (takes_name "is") ?_ (.pure 1 e)
  refine (Turns.accept (takes_name "not")).bind fun negated => Turns.anyName.bind fun name => ?_
  exact (h.testArguments levels e.lastLine).bind fun args => h.filters levels _

theorem readFiltering (h : EvenReading all fuel) (levels : Nat) : Turns all 1 1 (readFiltering (fuel + 1) levels) := by
  rw [Template.readFiltering]
  have harguments := (h.arguments levels true false).inside
  exact Turns.anyName.bind fun name =>
    .accept_ite takes_openParen (harguments.bind fun args => .pure 1 _) (.pure 1 _)

theorem readTestArguments (h : EvenReading all fuel) (levels line : Nat) :
    Turns all 1 1 (readTestArguments (fuel + 1) levels line) := by
  rw [Template.readTestArguments]
  refine .accept_ite takes_openParen ((h.arguments levels true false).inside.map _) ?_
  refine .peek_bind fun t ts => Turns.ite ?_ (.pure 1 _) _
  exact (h.signed levels).bind fun e => (h.postfix' levels e).bind fun e => .pure 1 _

theorem readArguments (h : EvenReading all fuel) (levels : Nat) (first named : Bool) :
    Turns all 1 0 (readArguments (fuel + 1) levels first named) := by
  rw [Template.readArguments]
  refine .accept_ite takes_closeParen (.pure 0 _) ?_
  dsimp only
  refine Turns.optional (!first) Turns.comma fun _ => ?_
  refine .accept_ite takes_closeParen (.pure 0 _) ?_
  refine (h.expr levels).bind fun e => (Turns.accept (takes_mark rfl)).bind fun assigned => .ite ?_ (.ite ?_ ?_)
  · exact (h.expr levels).bind fun value => (h.arguments levels false true).bind fun rest => .pure 0 _
  · exact .malformed 1 0
  · exact (h.arguments levels false false).bind fun rest => .pure 0 _

theorem readItems (h : EvenReading all fuel) (levels : Nat) (first : Bool) (closing : Mark) (k : Nat)
    (hk : Takes all k (Token.isMark closing)) : Turns all 1 k (readItems (fuel + 1) levels first closing) := by
  rw [Template.readItems]
  refine .accept_ite hk (.pure k _) ?_
  dsimp only
  refine Turns.optional (!first) Turns.comma fun _ => .accept_ite hk (.pure k _) ?_
  exact (h.expr levels).bind fun e => (h.items levels false closing k hk).bind fun rest => .pure k _

theorem readMembers (h : EvenReading all fuel) (levels : Nat) (first : Bool) :
    Turns all 1 (closed all) (readMembers (fuel + 1) levels first) := by
  have hclosing : Takes all (closed all) (Token.isMark .closeBrace) := takes_closing (.inr rfl)
  rw [Template.readMembers]
  refine .accept_ite hclosing (.pure _ _) ?_
  dsimp only
  refine Turns.optional (!first) Turns.comma fun _ => .accept_ite hclosing (.pure _ _) ?_
  refine (h.expr levels).bind fun key => (Turns.expect (takes_mark rfl)).bind fun _ => ?_
  exact (h.expr levels).bind fun value => (h.members levels false).bind fun rest => .pure _ _

/-- What stands in parentheses, up to the closing one. -/
theorem readParentheses (h : EvenReading all fuel) (levels line : Nat) : Turns all 1 0 (do
    if ← accept (Token.isMark .closeParen) then pure (.ofItems line [])
    else
      let e ← readExpr fuel levels
      if ← accept (Token.isMark .comma) then
        let rest ← Template.readItems fuel levels true .closeParen
        pure (.ofItems line (e :: rest))
      else
        expect (Token.isMark .closeParen)
        pure e) := by
  refine .accept_ite takes_closeParen (.pure 0 _) ((h.expr levels).bind fun e => ?_)
  refine .accept_ite (takes_mark rfl) ?_ ((Turns.expect takes_closeParen).bind fun _ => .pure 0 e)
  exact (h.items levels true .closeParen 0 takes_closeParen).bind fun rest => .pure 0 _

theorem readPrimary (h : EvenReading all fuel) (levels : Nat) : Turns all 1 1 (readPrimary (fuel + 1) levels) := by
  cases levels with
  | zero =>
    rw [Template.readPrimary]
    exact .malformed 1 1
  | succ levels =>
    rw [Template.readPrimary]
    refine .take_bind fun l ts => ?_
    obtain ⟨token, line⟩ := l
    cases token with
    | name s =>
      refine .take_bind (fun n => rfl) ?_
      dsimp only
      split <;> exact .pure 1 _
    | text | int | float => exact .take_bind (fun n => rfl) (.pure 1 _)
    | mark m =>
      cases m with
      | openParen => exact .take_bind (fun n => rfl) (h.readParentheses levels line).inside
      | openBracket =>
        refine .take_bind (takes_opening (.inl rfl) _ rfl · _) (Turns.map ?_ _)
        exact (h.items levels true .closeBracket _ (takes_closing (.inl rfl))).enclose
      | openBrace =>
        exact .take_bind (takes_opening (.inr rfl) _ rfl · _) ((h.members levels true).enclose.map _)
      | _ => exact .take_refused rfl ts
    | _ => exact .take_refused rfl ts

theorem readExpr (h : EvenReading all fuel) (levels : Nat) : Turns all 1 1 (readExpr (fuel + 1) levels) := by
  cases levels with
  | zero =>
    rw [Template.readExpr]
    exact .malformed 1 1
  | succ levels =>
    rw [Template.readExpr]
    exact h.choice levels

end EvenReading

/-- Every reader of expressions closes the brackets that it opens. -/
theorem evenReading (all : Bool) (fuel : Nat) : EvenReading all fuel := by
  induction fuel with
  | zero =>
    constructor
    all_goals
      intros
      simp only [readExpr, readChoice, readConditions, readLevel, readJoined, readLinks, readSigned, readPostfix, readIndex,
        readFilters, readFiltering, readTestArguments, readArguments, readItems, readMembers, readPrimary]
      exact .malformed _ _
  | succ fuel ih =>
    exact ⟨ih.readExpr, ih.readChoice, ih.readConditions, ih.readLevel, ih.readJoined, ih.readLinks, ih.readSigned,
      ih.readPostfix, ih.readIndex, ih.readFilters, ih.readFiltering, ih.readTestArguments, ih.readArguments,
      ih.readItems, ih.readMembers, ih.readPrimary⟩

/-- The arguments of a call are read up to the parenthesis that closes it. -/
theorem behind_of_readArguments {fuel levels : Nat} {ts ts' : List Lexeme} {args : List Argument}
    (h : (readArguments fuel levels true false).run ts = .ok (args, ts')) : behind false 1 ts = some ts' := by
  have hturns := (evenReading false fuel).arguments levels true false ts h 0
  rwa [Nat.zero_add, Nat.zero_add, behind_zero] at hturns

/-! ## Calls -/

/-- What the reading of arguments comes to, as that of the call that they are given in. -/
def callOf (line : Nat) (name : Chars) (result : Except RenderErrorKind (List Argument × List Lexeme)) :
    Except RenderErrorKind (Expr × List Lexeme) :=
  result.map fun r => (.call line name (gather line r.1), r.2)

section
variable {fuel levels : Nat} {name : Chars} {t l : Lexeme} {ts rest : List Lexeme}

/-- A call is read as its arguments are. -/
theorem run_readLevel_call (hname : NamesVariable name) {line : Nat}
    {result : Except RenderErrorKind (List Argument × List Lexeme)}
    (h : (readArguments (fuel + 1) (levels + 1) true false).run ts = result) (hresult : Ended (callOf line name result)) :
    (readLevel (fuel + 3) (levels + 1) .operand).run (⟨.name name, line⟩ :: ⟨.mark .openParen, line⟩ :: ts) =
      callOf line name result := by
  have hpostfix : (readPostfix (fuel + 2) (levels + 1) (.var line name)).run (⟨.mark .openParen, line⟩ :: ts) =
      callOf line name result := by
    rw [readPostfix, run_bind_ok (run_accept_of_not rfl rfl ts), if_neg (by simp),
      run_bind_ok (run_accept_of_not rfl rfl ts), if_neg (by simp), run_bind_ok (run_accept rfl rfl ts), if_pos rfl]
    rcases result with kind | ⟨args, _ | ⟨l, rest⟩⟩
    · exact run_bind_error h _
    · cases hresult
    · have hend : l.token.endsExpr = true := hresult
      have hmark {m : Mark} (hm : (Token.mark m).endsExpr = false) := Token.isMark_of_endsExpr hend hm
      rw [run_bind_ok h]
      exact run_readPostfix (Token.isFailure_of_endsExpr hend) (hmark rfl) (hmark rfl) (hmark rfl) fuel _ rest
  rw [readLevel, run_bind_ok (run_readSigned_name hname.2 fuel line _)]
  exact run_bind_of_ended hpostfix hresult fun e l rest hl => run_readFilters hl (fuel + 1) (levels + 1) e

/-- A name alone as the arguments of a call. -/
theorem run_readArguments_name (hname : NamesVariable name) (hfuel : 15 ≤ fuel) (levels line : Nat)
    (rest : List Lexeme) :
    (readArguments fuel (levels + 2) true false).run (⟨.name name, line⟩ :: ⟨.mark .closeParen, line⟩ :: rest) =
      .ok ([(none, .var line name)], rest) := by
  obtain ⟨fuel, rfl⟩ : ∃ m, fuel = m + 13 + 1 + 1 := ⟨fuel - 15, by omega⟩
  have hnot : (Token.name name).isName "not" = false := beq_eq_false_iff_ne.2 hname.1
  have hoperand := run_readLevel_name (t := ⟨.mark .closeParen, line⟩) hname rfl (fuel + 1) levels line rest
  have hexpr := run_readExpr_of_operand rfl hnot hoperand rfl
  have hend : (readArguments (fuel + 13 + 1) (levels + 2) false false).run (⟨.mark .closeParen, line⟩ :: rest) =
      .ok ([], rest) := by
    rw [readArguments, run_bind_ok (run_accept rfl rfl rest)]
    rfl
  rw [readArguments, run_bind_ok (run_accept_of_not rfl rfl _), if_neg (by simp)]
  dsimp only
  rw [Bool.not_true, if_neg (by simp), run_bind_ok (run_accept_of_not rfl rfl _), if_neg (by simp), run_bind_ok hexpr,
    run_bind_ok (run_accept_of_not rfl rfl rest), Bool.and_false, if_neg (by simp), if_neg (by simp), run_bind_ok hend]
  rfl

/-- What stands in parentheses is read as an expression, unless nothing does. -/
theorem run_readSigned_parentheses (ht : t.token.isFailure = false) (hclose : t.token.isMark .closeParen = false)
    (fuel levels line : Nat) (ts : List Lexeme) :
    (readSigned (fuel + 2) (levels + 1)).run (⟨.mark .openParen, line⟩ :: t :: ts) = (do
      let e ← readExpr fuel levels
      if ← accept (Token.isMark .comma) then
        let rest ← readItems fuel levels true .closeParen
        pure (.ofItems line (e :: rest))
      else
        expect (Token.isMark .closeParen)
        pure e : Reading Expr).run (t :: ts) := by
  rw [readSigned, run_bind_ok (run_accept_of_not rfl rfl _), if_neg (by simp), readPrimary,
    run_bind_ok (run_take rfl _)]
  dsimp only
  rw [run_bind_ok (run_accept_of_not ht hclose ts), if_neg (by simp)]

/-- An expression in parentheses, with a filter. -/
theorem run_readLevel_parentheses {e : Expr} {filter : Chars} {line' : Nat} (ht : t.token.isFailure = false)
    (hclose : t.token.isMark .closeParen = false) (hl : l.token.endsExpr = true)
    (h : (readExpr (fuel + 1) levels).run (t :: ts) =
      .ok (e, ⟨.mark .closeParen, line'⟩ :: ⟨.mark .bar, line'⟩ :: ⟨.name filter, line'⟩ :: l :: rest)) (line : Nat) :
    (readLevel (fuel + 4) (levels + 1) .operand).run (⟨.mark .openParen, line⟩ :: t :: ts) =
      .ok (.filter e filter [] [], l :: rest) := by
  have hsigned : (readSigned (fuel + 3) (levels + 1)).run (⟨.mark .openParen, line⟩ :: t :: ts) =
      .ok (e, ⟨.mark .bar, line'⟩ :: ⟨.name filter, line'⟩ :: l :: rest) := by
    rw [run_readSigned_parentheses ht hclose, run_bind_ok h, run_bind_ok (run_accept_of_not rfl rfl _),
      if_neg (by simp), run_bind_ok (run_expect rfl rfl _)]
    rfl
  rw [readLevel, run_bind_ok hsigned, run_bind_ok (run_readPostfix rfl rfl rfl rfl (fuel + 2) e _)]
  exact run_readFilters_filter hl (fuel + 1) (levels + 1) e filter line'

theorem run_readLevel_parentheses_refused {kind : RenderErrorKind} (ht : t.token.isFailure = false)
    (hclose : t.token.isMark .closeParen = false) (h : (readExpr fuel levels).run (t :: ts) = .error kind) (line : Nat) :
    (readLevel (fuel + 3) (levels + 1) .operand).run (⟨.mark .openParen, line⟩ :: t :: ts) = .error kind := by
  rw [readLevel, run_bind_error]
  rw [run_readSigned_parentheses ht hclose, run_bind_error h]

/-- A call in parentheses, with a filter. -/
theorem run_readExpr_call (hname : NamesVariable name) (hl : l.token.endsExpr = true) {filter : Chars}
    {args : List Argument} {line' : Nat}
    (h : (readArguments (fuel + 4) (levels + 1) true false).run ts =
      .ok (args, ⟨.mark .closeParen, line'⟩ :: ⟨.mark .bar, line'⟩ :: ⟨.name filter, line'⟩ :: l :: rest)) (line : Nat) :
    (readExpr (fuel + 29) (levels + 4)).run
        (⟨.mark .openParen, line⟩ :: ⟨.name name, line⟩ :: ⟨.mark .openParen, line⟩ :: ts) =
      .ok (.filter (.call line name (gather line args)) filter [] [], l :: rest) := by
  have hnot : (Token.name name).isName "not" = false := beq_eq_false_iff_ne.2 hname.1
  have hcall : (readLevel (fuel + 6) (levels + 1) .operand).run
      (⟨.name name, line⟩ :: ⟨.mark .openParen, line⟩ :: ts) = _ :=
    run_readLevel_call hname h rfl
  have hinner := run_readExpr_of_operand rfl hnot hcall rfl
  have hraw := run_readLevel_parentheses rfl rfl hl hinner line
  exact run_readExpr_of_operand rfl rfl hraw hl

theorem run_readExpr_call_refused (hname : NamesVariable name) {kind : RenderErrorKind}
    (h : (readArguments (fuel + 4) (levels + 1) true false).run ts = .error kind) (line : Nat) :
    (readExpr (fuel + 29) (levels + 4)).run
        (⟨.mark .openParen, line⟩ :: ⟨.name name, line⟩ :: ⟨.mark .openParen, line⟩ :: ts) = .error kind := by
  have hnot : (Token.name name).isName "not" = false := beq_eq_false_iff_ne.2 hname.1
  have hcall : (readLevel (fuel + 6) (levels + 1) .operand).run
      (⟨.name name, line⟩ :: ⟨.mark .openParen, line⟩ :: ts) = _ :=
    run_readLevel_call hname h trivial
  have hinner := run_readExpr_of_operand rfl hnot hcall trivial
  have hraw := run_readLevel_parentheses_refused rfl rfl hinner line
  exact run_readExpr_of_operand rfl rfl hraw trivial

end

/-- What the tokens behind the name of a call have behind the parenthesis that closes it, if they close it at all:
the rest of an output tag that is not escaped. -/
def EndsCall (ts : List Lexeme) : Prop :=
  ∀ ts', behind false 1 ts = some ts' → ∃ line rest, ts' = ⟨.mark .closeParen, line⟩ :: ⟨.mark .bar, line⟩ ::
    ⟨.name "safe".toList, line⟩ :: rest ∧
      (rest = [⟨.stop .output, line⟩] ∨ ∃ more, rest = ⟨.mark .closeBrace, line⟩ :: more)

/-- The statement of a call in an output tag that is not escaped. -/
def callStmt (line : Nat) (name : Chars) (args : List Argument) : Stmt :=
  .output (.filter (.call line name (gather line args)) "safe".toList [] [])

/-- The tokens of a call in parentheses, in an output tag that is not escaped. -/
def callLexemes (line : Nat) (name : Chars) (ts : List Lexeme) : List Lexeme :=
  ⟨.start .output, line⟩ :: ⟨.mark .openParen, line⟩ :: ⟨.name name, line⟩ :: ⟨.mark .openParen, line⟩ :: ts

section
variable {name : Chars} {ts : List Lexeme} {line : Nat} {levels : Nat}

theorem run_readBody_output (fuel levels : Nat) (inLoop : Bool) (ends : List String) (line : Nat) (ts : List Lexeme) :
    (readBody (fuel + 1) levels inLoop ends).run (⟨.start .output, line⟩ :: ts) = (do
      let e ← readExpr fuel levels
      expect (Token.isStop .output)
      let rest ← readBody fuel levels inLoop ends
      pure (.output e :: rest) : Reading (List Stmt)).run ts := by
  rw [readBody]
  rfl

/-- A call that is closed and followed by the end of its tag and of the template. -/
theorem yields_call (hname : NamesVariable name) {args : List Argument} {line' need : Nat} (hneed : 4 ≤ need)
    (h : ∀ fuel, need ≤ fuel → (readArguments fuel (levels + 1) true false).run ts = .ok (args,
      ⟨.mark .closeParen, line'⟩ :: ⟨.mark .bar, line'⟩ :: ⟨.name "safe".toList, line'⟩ :: [⟨.stop .output, line'⟩]))
    (inLoop : Bool) (ends : List String) (line : Nat) :
    Yields (need + 26) (levels + 4) inLoop ends (callLexemes line name ts) (.ok ([callStmt line name args], [])) := by
  intro fuel hfuel
  obtain ⟨fuel, rfl⟩ : ∃ m, fuel = m + 29 + 1 := ⟨fuel - 30, by omega⟩
  have hargs := h (fuel + 4) (by omega)
  rw [callLexemes, run_readBody_output, run_bind_ok (run_readExpr_call hname rfl hargs line),
    run_bind_ok (run_expect rfl rfl _), run_bind_ok (Yields.nil _ _ _ _ (by omega))]
  rfl

/-- A call that is followed by the rest of its tag, if it is closed, is refused or read as that call. -/
theorem run_readBody_call (hname : NamesVariable name) (hend : EndsCall ts) (inLoop : Bool)
    (ends : List String) (line : Nat) (fuel : Nat) :
    (∃ kind, (readBody (fuel + 30) (levels + 4) inLoop ends).run (callLexemes line name ts) = .error kind) ∨
      ∃ args, (readBody (fuel + 30) (levels + 4) inLoop ends).run (callLexemes line name ts) =
        .ok ([callStmt line name args], []) := by
  rw [callLexemes, run_readBody_output]
  cases hargs : (readArguments (fuel + 4) (levels + 1) true false).run ts with
  | error kind => exact .inl ⟨kind, run_bind_error (run_readExpr_call_refused hname hargs line) _⟩
  | ok r =>
    obtain ⟨args, ts'⟩ := r
    obtain ⟨line', rest, rfl, rfl | ⟨more, rfl⟩⟩ := hend _ (behind_of_readArguments hargs)
    · refine .inr ⟨args, ?_⟩
      rw [run_bind_ok (run_readExpr_call hname rfl hargs line), run_bind_ok (run_expect rfl rfl _),
        run_bind_ok (Yields.nil _ _ _ _ (by omega))]
      rfl
    · refine .inl ⟨.syntaxError, ?_⟩
      rw [run_bind_ok (run_readExpr_call hname rfl hargs line)]
      refine run_bind_error ?_ _
      rw [expect, run_bind_ok (run_accept_of_not rfl rfl _)]
      rfl

end

/-- The tokens of arguments that are closed by the last of them, in front of the rest of an output tag. -/
theorem endsCall_scanTag {args : Chars} (h : Expression.shuts .outside 0 args = true) {fuel : Nat}
    (hfuel : (args ++ callEnd).length < fuel) (nesting : Int) (line : Nat) :
    EndsCall (scanTag fuel .output nesting line (args ++ callEnd)) := by
  intro ts' hts
  have hcloses : Closes 1 args := h
  rcases hcloses.scanTag callEnd .output fuel hfuel nesting line with hnone | ⟨fuel', nesting', line', hfuel', hsome⟩
  · rw [hnone] at hts
    cases hts
  · rw [hsome] at hts
    obtain ⟨rest, hrest, hend⟩ := scanTag_callEnd fuel' hfuel' nesting' line'
    exact ⟨line', rest, (Option.some.inj hts).symm.trans hrest, hend.imp And.right And.right⟩

/-- A call in parentheses in an output tag that is not escaped, up to the parenthesis that closes it, is refused or
read as that call. -/
theorem read_call {name args : Chars} (hw : name.head?.any Text.isNameStart = true)
    (hchars : name.all Text.isNameChar = true) (hname : NamesVariable name)
    (h : Expression.shuts .outside 0 args = true) :
    (∃ kind, read (Dialect.minijinja.rawOutput ('(' :: (name ++ '(' :: args) ++ [')'])) = .error kind) ∨
      ∃ given, read (Dialect.minijinja.rawOutput ('(' :: (name ++ '(' :: args) ++ [')'])) =
        .ok [callStmt 1 name given] := by
  obtain ⟨fuel, hfuel, htokens⟩ := tokens_call hw hchars args
  let inner := scanTag fuel .output 2 1 (args ++ callEnd)
  have hend : EndsCall inner := endsCall_scanTag h hfuel 2 1
  have hbody : (∃ kind, (readBody (16 * (callLexemes 1 name inner).length + 2 + 30) nestingLimit false []).run
        (callLexemes 1 name inner) = .error kind) ∨
      ∃ given, (readBody (16 * (callLexemes 1 name inner).length + 2 + 30) nestingLimit false []).run
        (callLexemes 1 name inner) = .ok ([callStmt 1 name given], []) :=
    run_readBody_call hname hend false [] 1 _
  rw [read, htokens]
  obtain ⟨kind, hkind⟩ | ⟨given, hgiven⟩ := hbody
  · exact .inl ⟨kind, congrArg (Except.map Prod.fst) hkind⟩
  · exact .inr ⟨given, congrArg (Except.map Prod.fst) hgiven⟩

end ViewBridge.Template
