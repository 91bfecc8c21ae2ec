import ViewBridge.Proofs.Phrase.Exchange
/-!
# The last operand

A filter that is written behind an expression belongs to the last operand of it, however much the expression has in
front of that operand. So every reader of expressions reads the same with the filter as without, except that the one
that comes to the end finds the last operand filtered. What the end of the tag is makes no difference.

Results:
* `follows`: with more fuel, the readers go on alike up to what stands behind the tokens.
* `Exchange.readExpr`: what is read of an expression with something else behind it.
-/
namespace ViewBridge.Template

open Reading

/-! ## The last operand -/

/-- The place of the last operand of an expression: on the right of everything around it. Where a condition has no
alternative, the condition itself comes last. -/
inductive LastPlace where
  | here
  | not (p : LastPlace)
  | binary (op : Operator) (a : Expr) (p : LastPlace)
  | both (a : Expr) (p : LastPlace)
  | either (a : Expr) (p : LastPlace)
  | link (a : Expr) (links : List ((Operator × Bool) × Expr)) (op : Operator × Bool) (p : LastPlace)
  | otherwise (test yes : Expr) (p : LastPlace)
  | condition (yes : Expr) (p : LastPlace)

/-- The expression with an operand in that place. -/
def LastPlace.fill : LastPlace → Expr → Expr
  | here, o => o
  | not p, o => .not (p.fill o)
  | binary op a p, o => .binary op a (p.fill o)
  | both a p, o => .both a (p.fill o)
  | either a p, o => .either a (p.fill o)
  | link a links op p, o => .compare a (links ++ [(op, p.fill o)])
  | otherwise test yes p, o => .cond test yes (p.fill o)
  | condition yes p, o => .cond (p.fill o) yes (.const yes.lastLine .undefined)

/-- Where a filter is on the second of two operands, that one was the last. -/
theorem LastPlace.eq_of_fill_filter {p : LastPlace} {op : Operator} {a b o : Expr} {filter : Chars}
    (h : p.fill (.filter o filter [] []) = .binary op a (.filter b filter [] [])) :
    p = .binary op a .here ∧ o = b := by
  cases p with
  | binary op' a' q =>
    obtain ⟨rfl, rfl, hlast⟩ := Expr.binary.inj h
    cases q with
    | here => exact ⟨rfl, (Expr.filter.inj hlast).1⟩
    | _ => cases hlast
  | _ => cases h

/-- The tokens in front of others end in an operand. -/
def EndsIn (stop ts : List Lexeme) (o : Expr) : Prop :=
  ∃ fuel levels us, us <:+ ts ∧ (readLevel fuel levels .operand).run (us ++ stop) = .ok (o, stop)

/-- An expression, and the same with something made of its last operand. -/
def LastChanged (g : Expr → Expr) (stop ts : List Lexeme) (e e' : Expr) : Prop :=
  ∃ (p : LastPlace) (o : Expr), e = p.fill o ∧ e' = p.fill (g o) ∧ EndsIn stop ts o

/-- Links of comparisons, and the same with something made of the last operand of the last one. -/
def LastLinkChanged (g : Expr → Expr) (stop ts : List Lexeme)
    (links links' : List ((Operator × Bool) × Expr)) : Prop :=
  ∃ init op e e', links = init ++ [(op, e)] ∧ links' = init ++ [(op, e')] ∧ LastChanged g stop ts e e'

namespace LastChanged

variable {g : Expr → Expr} {stop ts : List Lexeme} {e e' : Expr}

theorem not (h : LastChanged g stop ts e e') : LastChanged g stop ts (.not e) (.not e') := by
  obtain ⟨p, o, rfl, rfl, hends⟩ := h
  exact ⟨.not p, o, rfl, rfl, hends⟩

theorem join {l : Level} {t : Token} {f : Expr → Expr → Expr} (hf : l.join? t = some f) (a : Expr)
    (h : LastChanged g stop ts e e') : LastChanged g stop ts (f a e) (f a e') := by
  obtain ⟨p, o, rfl, rfl, hends⟩ := h
  cases t with
  | mark m =>
    obtain ⟨op, -, rfl⟩ := Option.map_eq_some_iff.1 hf
    exact ⟨.binary op a p, o, rfl, rfl, hends⟩
  | name s =>
    simp only [Level.join?] at hf
    split_ifs at hf
    · obtain rfl := Option.some.inj hf
      exact ⟨.either a p, o, rfl, rfl, hends⟩
    · obtain rfl := Option.some.inj hf
      exact ⟨.both a p, o, rfl, rfl, hends⟩
  | _ => cases hf

theorem otherwise (test yes : Expr) (h : LastChanged g stop ts e e') :
    LastChanged g stop ts (.cond test yes e) (.cond test yes e') := by
  obtain ⟨p, o, rfl, rfl, hends⟩ := h
  exact ⟨.otherwise test yes p, o, rfl, rfl, hends⟩

theorem condition (yes : Expr) (h : LastChanged g stop ts e e') :
    LastChanged g stop ts (.cond e yes (.const yes.lastLine .undefined))
      (.cond e' yes (.const yes.lastLine .undefined)) := by
  obtain ⟨p, o, rfl, rfl, hends⟩ := h
  exact ⟨.condition yes p, o, rfl, rfl, hends⟩

theorem link (op : Operator × Bool) (h : LastChanged g stop ts e e') :
    LastLinkChanged g stop ts [(op, e)] [(op, e')] := ⟨[], op, e, e', rfl, rfl, h⟩

end LastChanged

namespace LastLinkChanged

variable {g : Expr → Expr} {stop ts : List Lexeme} {links links' : List ((Operator × Bool) × Expr)}

theorem cons (l : (Operator × Bool) × Expr) (h : LastLinkChanged g stop ts links links') :
    LastLinkChanged g stop ts (l :: links) (l :: links') := by
  obtain ⟨init, op, e, e', rfl, rfl, hchanged⟩ := h
  exact ⟨l :: init, op, e, e', rfl, rfl, hchanged⟩

theorem compare (a : Expr) (h : LastLinkChanged g stop ts links links') :
    links ≠ [] ∧ links' ≠ [] ∧ LastChanged g stop ts (.compare a links) (.compare a links') := by
  obtain ⟨init, op, e, e', rfl, rfl, p, o, rfl, rfl, hends⟩ := h
  exact ⟨by simp, by simp, .link a init op p, o, rfl, rfl, hends⟩

end LastLinkChanged

/-! ## The readers of expressions -/

/-- How the readers of expressions with so much fuel go on with other fuel, in front of other tokens. -/
structure Follows (g : Expr → Expr) (stop more last : List Lexeme) (fuel fuel' : Nat) : Prop where
  expr : ∀ levels ts, EndsAt stop more last (LastChanged g stop) (readExpr fuel levels) (readExpr fuel' levels) ts
  choice : ∀ levels ts, EndsAt stop more last (LastChanged g stop) (readChoice fuel levels) (readChoice fuel' levels) ts
  conditions : ∀ levels,
    GoesOn stop more last (LastChanged g stop) (readConditions fuel levels) (readConditions fuel' levels) id
  level : ∀ levels l ts,
    EndsAt stop more last (LastChanged g stop) (readLevel fuel levels l) (readLevel fuel' levels l) ts
  joined : ∀ levels l,
    GoesOn stop more last (LastChanged g stop) (readJoined fuel levels l) (readJoined fuel' levels l) id
  links : ∀ levels, GoesOn stop more last (LastLinkChanged g stop) (fun _ : Unit => readLinks fuel levels)
    (fun _ => readLinks fuel' levels) fun _ => []
  signed : ∀ levels, Keeps stop more (readSigned fuel levels) (readSigned fuel' levels)
  postfix' : ∀ levels e, Keeps stop more (readPostfix fuel levels e) (readPostfix fuel' levels e)
  index : ∀ levels e, Keeps stop more (readIndex fuel levels e) (readIndex fuel' levels e)
  filters : ∀ levels e ts, EndsAt stop more last (fun _ o o' => o' = g o) (readFilters fuel levels e)
    (readFilters fuel' levels e) ts
  filtering : ∀ levels, Keeps stop more (readFiltering fuel levels) (readFiltering fuel' levels)
  testArguments : ∀ levels line,
    Keeps stop more (readTestArguments fuel levels line) (readTestArguments fuel' levels line)
  arguments : ∀ levels first named,
    Keeps stop more (readArguments fuel levels first named) (readArguments fuel' levels first named)
  items : ∀ levels first closing,
    Keeps stop more (readItems fuel levels first closing) (readItems fuel' levels first closing)
  members : ∀ levels first, Keeps stop more (readMembers fuel levels first) (readMembers fuel' levels first)
  primary : ∀ levels, Keeps stop more (readPrimary fuel levels) (readPrimary fuel' levels)

section
variable {g : Expr → Expr} {stop more last : List Lexeme}

/-! ### What must go on -/

namespace Refuses

variable (hx : Exchange g stop more last) (fuel levels : Nat)
include hx

theorem primary : Refuses stop (readPrimary fuel levels) := by
  match fuel, levels with
  | 0, levels =>
    rw [readPrimary]
    exact malformed
  | fuel + 1, 0 =>
    rw [readPrimary]
    exact malformed
  | fuel + 1, levels + 1 =>
    rw [readPrimary]
    exact take_bind hx fun kind line => rfl

theorem signed : Refuses stop (readSigned fuel levels) := by
  cases fuel with
  | zero =>
    rw [readSigned]
    exact malformed
  | succ fuel =>
    rw [readSigned]
    exact accept_bind hx (within_mark .minus) (primary hx fuel levels)

theorem level (l : Level) : Refuses stop (readLevel fuel levels l) := by
  induction fuel generalizing l with
  | zero =>
    rw [readLevel]
    exact malformed
  | succ fuel ih =>
    cases l with
    | negation =>
      rw [readLevel]
      exact accept_bind hx (inner_name "not").within (ih .comparison)
    | operand =>
      rw [readLevel]
      exact (signed hx fuel levels).bind _
    | _ =>
      rw [readLevel]
      · exact (ih _).bind _
      all_goals
        intro h
        cases h

/-- An expression has a token. -/
theorem expr : Refuses stop (readExpr fuel levels) := by
  match fuel, levels with
  | 0, levels =>
    rw [readExpr]
    exact malformed
  | fuel + 1, 0 =>
    rw [readExpr]
    exact malformed
  | 1, levels + 1 =>
    rw [readExpr, readChoice]
    exact malformed
  | fuel + 2, levels + 1 =>
    rw [readExpr, readChoice]
    exact (level hx fuel levels .either).bind _

theorem comma : Refuses stop (Reading.expect (Token.isMark .comma)) := expect hx (within_mark .comma)

/-- A comma in front of what must go on, unless that comes first. -/
theorem optional {α : Type} (first : Bool) {x : Reading α} (h : Refuses stop x) :
    Refuses stop (if (!first) = true then do Reading.expect (Token.isMark .comma); x else x) :=
  .ite ((comma hx).bind _) h

theorem arguments (named : Bool) : Refuses stop (readArguments fuel levels false named) := by
  cases fuel with
  | zero =>
    rw [readArguments]
    exact malformed
  | succ fuel =>
    rw [readArguments]
    exact accept_bind hx (within_mark .closeParen) ((comma hx).bind _)

theorem items (closing : Mark) : Refuses stop (readItems fuel levels false closing) := by
  cases fuel with
  | zero =>
    rw [readItems]
    exact malformed
  | succ fuel =>
    rw [readItems]
    exact accept_bind hx (within_mark closing) ((comma hx).bind _)

theorem members : Refuses stop (readMembers fuel levels false) := by
  cases fuel with
  | zero =>
    rw [readMembers]
    exact malformed
  | succ fuel =>
    rw [readMembers]
    exact accept_bind hx (within_mark .closeBrace) ((comma hx).bind _)

end Refuses

theorem startsOperand_of_isInert {t : Token} (h : t.isInert = true) : startsOperand t = false := by
  cases t with
  | mark m => cases m <;> first | rfl | cases h
  | stop => rfl
  | _ => cases h

namespace Follows

variable {fuel fuel' : Nat} (hx : Exchange g stop more last) (hfuel : fuel < fuel')

theorem readExpr (h : Follows g stop more last fuel fuel') (levels : Nat) (ts : List Lexeme) :
    EndsAt stop more last (LastChanged g stop) (readExpr (fuel + 1) levels) (readExpr (fuel' + 1) levels) ts := by
  cases levels with
  | zero =>
    rw [Template.readExpr]
    exact .malformed _
  | succ levels =>
    rw [Template.readExpr, Template.readExpr]
    exact h.choice levels ts

theorem readChoice (h : Follows g stop more last fuel fuel') (levels : Nat) (ts : List Lexeme) :
    EndsAt stop more last (LastChanged g stop) (readChoice (fuel + 1) levels) (readChoice (fuel' + 1) levels) ts := by
  rw [Template.readChoice, Template.readChoice]
  exact (h.level levels .either ts).bind (h.conditions levels) fun _ _ _ => id

include hx in
/-- Where nothing else stands behind the last token, the choice of something else is not taken. -/
theorem of_run_accept_stop {α : Type} {wanted : Token → Bool} (hw : Inner wanted) {F : Bool → Reading α}
    {r : α × List Lexeme} (hrun : (accept wanted >>= F).run stop = .ok r) : (F false).run stop = .ok r ∧
      ∀ {β : Type} (G : Bool → Reading β), (accept wanted >>= G).run last = (G false).run last := by
  obtain ⟨b, mid, haccept, hmore⟩ := eq_of_run_bind hrun
  obtain ⟨rfl, rfl⟩ := hx.run_accept_stop hw.within haccept
  obtain ⟨l, rest, rfl, hl, -⟩ := hx.ended
  exact ⟨hmore, fun G => run_bind_ok (run_accept_of_not (isFailure_of_isInert hl) (hw _ hl) rest) G⟩

include hx in
theorem readConditions (h : Follows g stop more last fuel fuel') (levels : Nat) :
    GoesOn stop more last (LastChanged g stop) (readConditions (fuel + 1) levels) (readConditions (fuel' + 1) levels)
      id := by
  -- what goes on behind a condition: the alternative, or else the end of the condition is the end of all
  have htest (e : Expr) : GoesOn stop more last (LastChanged g stop)
      (fun test => do
        if ← accept (Token.isName "else") then
          let no ← Template.readChoice fuel levels
          Template.readConditions fuel levels (.cond test e no)
        else Template.readConditions fuel levels (.cond test e (.const e.lastLine .undefined)))
      (fun test => do
        if ← accept (Token.isName "else") then
          let no ← Template.readChoice fuel' levels
          Template.readConditions fuel' levels (.cond test e no)
        else Template.readConditions fuel' levels (.cond test e (.const e.lastLine .undefined)))
      fun test => .cond test e (.const e.lastLine .undefined) := by
    constructor
    · intro test ts hne
      cases ts with
      | nil => exact absurd rfl hne
      | cons l ts =>
        refine .accept_cons ?_ ((h.conditions levels).ends _ (l :: ts) hne)
        exact (h.choice levels ts).bind ((h.conditions levels).comp fun no => .cond test e no) fun us no no' hno =>
          hno.otherwise test e
    · intro test r ts' hrun
      obtain ⟨hmore, hG⟩ := of_run_accept_stop hx (inner_name "else") hrun
      obtain ⟨rfl, rfl, hmore'⟩ := (h.conditions levels).stops hmore
      exact ⟨rfl, rfl, fun test' => (hG _).trans (hmore' _)⟩
  constructor
  · intro e ts hne
    rw [Template.readConditions, Template.readConditions]
    cases ts with
    | nil => exact absurd rfl hne
    | cons l ts =>
      refine .accept_cons ?_ (.pure_cons e l ts)
      exact (h.level levels .either ts).bind (htest e) fun us test test' hchanged => hchanged.condition e
  · intro e r ts' hrun
    rw [Template.readConditions] at hrun
    obtain ⟨hmore, hG⟩ := of_run_accept_stop hx (inner_name "if") hrun
    obtain ⟨rfl, rfl⟩ := Prod.mk.inj (Except.ok.inj hmore)
    refine ⟨rfl, rfl, fun e' => ?_⟩
    rw [Template.readConditions]
    exact hG _

include hx in
theorem readJoined (h : Follows g stop more last fuel fuel') (levels : Nat) (l : Level) :
    GoesOn stop more last (LastChanged g stop) (readJoined (fuel + 1) levels l) (readJoined (fuel' + 1) levels l)
      id := by
  constructor
  · intro a ts hne
    rw [Template.readJoined, Template.readJoined]
    cases ts with
    | nil => exact absurd rfl hne
    | cons t ts =>
      refine .peek_bind ?_
      cases hjoin : l.join? t.token with
      | none => exact .pure_cons a t ts
      | some f =>
        exact .take_bind ((h.level levels l.tighter ts).bind ((h.joined levels l).comp (f a)) fun us b b' hb =>
          hb.join hjoin a)
  · intro a r ts' hrun
    obtain ⟨kind, line, rest, rfl⟩ : ∃ kind line rest, stop = ⟨.stop kind, line⟩ :: rest := by
      rw [Template.readJoined] at hrun
      obtain ⟨t, mid, hpeek, -⟩ := eq_of_run_bind hrun
      obtain ⟨kind, line, rest, hstop, -⟩ := hx.exists_stop hpeek
      exact ⟨kind, line, rest, hstop⟩
    rw [run_readJoined rfl] at hrun
    obtain ⟨rfl, rfl⟩ := Prod.mk.inj (Except.ok.inj hrun)
    obtain ⟨t, rest', rfl, -, ht⟩ := hx.ended
    exact ⟨rfl, rfl, fun a' => run_readJoined ht fuel' levels l a'⟩

include hx in
theorem readLinks (h : Follows g stop more last fuel fuel') (levels : Nat) :
    GoesOn stop more last (LastLinkChanged g stop) (fun _ : Unit => readLinks (fuel + 1) levels)
      (fun _ => readLinks (fuel' + 1) levels) fun _ => [] := by
  have hlink (op : Operator × Bool) (ts : List Lexeme) : EndsAt stop more last (LastLinkChanged g stop)
      (do
        let e ← Template.readLevel fuel levels .sum
        let links ← Template.readLinks fuel levels
        pure ((op, e) :: links))
      (do
        let e ← Template.readLevel fuel' levels .sum
        let links ← Template.readLinks fuel' levels
        pure ((op, e) :: links)) ts := by
    refine (h.level levels .sum ts).bind (k := fun e => [(op, e)]) ⟨fun e us hne => ?_, fun e r ts' hrun => ?_⟩
      fun us e e' he => he.link op
    · exact ((h.links levels).ends () us hne).bind_pure fun vs links links' hlinks => hlinks.cons (op, e)
    · obtain ⟨links, mid, hlinks, hmore⟩ := eq_of_run_bind hrun
      obtain ⟨rfl, rfl, hG⟩ := (h.links levels).stops (a := ()) hlinks
      obtain ⟨rfl, rfl⟩ := Prod.mk.inj (Except.ok.inj hmore)
      exact ⟨rfl, rfl, fun e' => run_bind_ok (hG ()) _⟩
  constructor
  · rintro - ts hne
    rw [Template.readLinks, Template.readLinks]
    cases ts with
    | nil => exact absurd rfl hne
    | cons t ts =>
      refine .peek_bind ?_
      dsimp only
      cases comparison? t.token with
      | some op => exact .take_bind (hlink (op, false) ts)
      | none =>
        dsimp only
        split
        · refine .take_bind (.of_keeps (Keeps.expect hx (inner_name "in").within ts) fun _ us _ => ?_)
          exact hlink (.within, true) us
        · exact .pure_cons [] t ts
  · rintro - r ts' hrun
    have hrun : (Template.readLinks (fuel + 1) levels).run stop = .ok (r, ts') := hrun
    obtain ⟨kind, line, rest, rfl⟩ : ∃ kind line rest, stop = ⟨.stop kind, line⟩ :: rest := by
      rw [Template.readLinks] at hrun
      obtain ⟨t, mid, hpeek, -⟩ := eq_of_run_bind hrun
      obtain ⟨kind, line, rest, hstop, -⟩ := hx.exists_stop hpeek
      exact ⟨kind, line, rest, hstop⟩
    rw [run_readLinks rfl] at hrun
    obtain ⟨rfl, rfl⟩ := Prod.mk.inj (Except.ok.inj hrun)
    obtain ⟨t, rest', rfl, -, ht⟩ := hx.ended
    exact ⟨rfl, rfl, fun _ => run_readLinks ht fuel' levels⟩

/-- What stands behind an operand makes something of it. -/
theorem readOperand (h : Follows g stop more last fuel fuel') (levels : Nat) (ts : List Lexeme) :
    EndsAt stop more last (fun _ o o' => o' = g o) (readLevel (fuel + 1) levels .operand)
      (readLevel (fuel' + 1) levels .operand) ts := by
  rw [Template.readLevel, Template.readLevel]
  refine .of_keeps (h.signed levels ts) fun e us _ => .of_keeps (h.postfix' levels e us) fun e vs _ => ?_
  exact h.filters levels e vs

include hx in
theorem readLevel (h : Follows g stop more last fuel fuel') (levels : Nat) (l : Level) (ts : List Lexeme) :
    EndsAt stop more last (LastChanged g stop) (readLevel (fuel + 1) levels l) (readLevel (fuel' + 1) levels l) ts := by
  cases l with
  | negation =>
    rw [Template.readLevel, Template.readLevel]
    exact .accept_ite hx (inner_name "not")
      (fun us => (h.level levels .negation us).map _ fun vs e e' he => he.not) (h.level levels .comparison) ts
  | comparison =>
    rw [Template.readLevel, Template.readLevel]
    refine (h.level levels .sum ts).bind (k := id) ⟨fun a us hne => ?_, fun a r ts' hrun => ?_⟩ fun _ _ _ => id
    · refine ((h.links levels).ends () us hne).bind_pure fun vs links links' hlinks => ?_
      obtain ⟨hne, hne', hchanged⟩ := hlinks.compare a
      simpa only [List.isEmpty_iff, hne, hne', if_false] using hchanged
    · obtain ⟨links, mid, hlinks, hmore⟩ := eq_of_run_bind hrun
      obtain ⟨rfl, rfl, hG⟩ := (h.links levels).stops (a := ()) hlinks
      obtain ⟨rfl, rfl⟩ := Prod.mk.inj (Except.ok.inj hmore)
      exact ⟨rfl, rfl, fun a' => run_bind_ok (hG ()) _⟩
  | operand =>
    intro e ts' hrun
    rcases h.readOperand levels ts hrun with hmid | ⟨rfl, _, us, hus, rfl, hy⟩
    · exact .inl hmid
    · exact .inr ⟨rfl, _, ts, List.suffix_refl ts, ⟨.here, e, rfl, rfl, fuel + 1, levels, ts, List.suffix_refl ts, hrun⟩,
        hy⟩
  | _ =>
    rw [Template.readLevel, Template.readLevel]
    · exact (h.level levels _ ts).bind (h.joined levels _) fun _ _ _ => id
    all_goals
      intro h
      cases h

include hx in
theorem readSigned (h : Follows g stop more last fuel fuel') (levels : Nat) :
    Keeps stop more (readSigned (fuel + 1) levels) (readSigned (fuel' + 1) levels) := by
  rw [Template.readSigned, Template.readSigned]
  exact .accept_ite hx (inner_mark (by decide)) ((h.signed levels).map _) (h.primary levels)

include hx in
theorem readPostfix (h : Follows g stop more last fuel fuel') (levels : Nat) (e : Expr) :
    Keeps stop more (readPostfix (fuel + 1) levels e) (readPostfix (fuel' + 1) levels e) := by
  rw [Template.readPostfix, Template.readPostfix]
  refine .accept_ite hx (inner_mark (by decide))
    ((Keeps.anyName hx).bind fun name => h.postfix' levels _) ?_
  refine .accept_ite hx (inner_mark (by decide)) ((h.index levels e).bind fun index => h.postfix' levels index) ?_
  exact .accept_ite hx (inner_mark (by decide))
    ((h.arguments levels true false).bind fun args => h.postfix' levels _) (.pure e)

include hx in
theorem readIndex (h : Follows g stop more last fuel fuel') (levels : Nat) (e : Expr) :
    Keeps stop more (readIndex (fuel + 1) levels e) (readIndex (fuel' + 1) levels e) := by
  have hcolon : Inner (Token.isMark .colon) := inner_mark (by decide)
  have hclosing : Inner (Token.isMark .closeBracket) := inner_mark (by decide)
  have hend {α : Type} (k : α → Expr) (a : α) : Keeps stop more
      (do
        expect (Token.isMark .closeBracket)
        pure (k a))
      (do
        expect (Token.isMark .closeBracket)
        pure (k a)) := (Keeps.expect hx (within_mark .closeBracket)).bind fun _ => .pure _
  have hopen {α : Type} (k : α → Expr) (a : α) : Refuses stop (do
      expect (Token.isMark .closeBracket)
      pure (k a)) := (Refuses.expect hx (within_mark .closeBracket)).bind _
  rw [Template.readIndex, Template.readIndex]
  dsimp only
  -- a bound that is left out is followed by what would follow it
  have hbound {c : Token → Bool} (hc : Inner c) {F G : Expr → Reading Expr} (absent : Expr)
      (hF : ∀ a, Keeps stop more (F a) (G a))
      (hrefuses : ∀ a, Refuses stop (F a)) : Keeps stop more
        (do
          let t ← peek
          if c t.token then pure absent >>= F else Template.readExpr fuel levels >>= F)
        (do
          let t ← peek
          if c t.token then pure absent >>= G else Template.readExpr fuel' levels >>= G) := by
    have hexpr (ts : List Lexeme) := (h.expr levels ts).bind_keeps hrefuses hF
    refine .peek_bind hx (fun l l' hl hl' => ?_) fun l ts => Keeps.ite_bind ((Keeps.pure absent).bind hF _) (hexpr _)
    rw [hc _ hl, hc _ hl']
    exact hexpr []
  refine hbound hcolon _ (fun start => ?_) fun start => ?_
  · refine .accept_ite hx hcolon ?_ (hend (Expr.item e) start)
    have heither : Inner fun t => t.isMark .closeBracket || t.isMark .colon :=
      fun t ht => Bool.or_eq_false_iff.2 ⟨hclosing t ht, hcolon t ht⟩
    refine hbound heither _ (fun stop' => ?_) fun stop' => ?_
    · refine .accept_ite hx hcolon ?_ ((Keeps.pure _).bind (hend (Expr.slice e start stop')))
      exact hbound hclosing _ (hend (Expr.slice e start stop')) (hopen (Expr.slice e start stop'))
    · exact .accept_bind hx (within_mark .colon) (hopen (Expr.slice e start stop') _)
  · exact .accept_bind hx (within_mark .colon) (hopen (Expr.item e) start)

include hx in
theorem readFiltering (h : Follows g stop more last fuel fuel') (levels : Nat) :
    Keeps stop more (readFiltering (fuel + 1) levels) (readFiltering (fuel' + 1) levels) := by
  rw [Template.readFiltering, Template.readFiltering]
  exact (Keeps.anyName hx).bind fun name => .accept_ite hx (inner_mark (by decide))
    ((h.arguments levels true false).bind fun args => .pure _) (.pure _)

include hx hfuel in
theorem readFilters (h : Follows g stop more last fuel fuel') (levels : Nat) (e : Expr) (ts : List Lexeme) :
    EndsAt stop more last (fun _ o o' => o' = g o) (readFilters (fuel + 1) levels e)
      (readFilters (fuel' + 1) levels e) ts := by
  cases ts with
  | nil =>
    intro a ts' hrun
    obtain ⟨kind, line, rest, hstop⟩ : ∃ kind line rest, stop = ⟨.stop kind, line⟩ :: rest := by
      rw [Template.readFilters] at hrun
      obtain ⟨b, mid, haccept, -⟩ := eq_of_run_bind hrun
      obtain ⟨t, mid', hpeek, -⟩ := eq_of_run_bind haccept
      obtain ⟨kind, line, rest, hstop, -⟩ := hx.exists_stop hpeek
      exact ⟨kind, line, rest, hstop⟩
    obtain ⟨m, rfl⟩ : ∃ m, fuel' = m + 1 := ⟨fuel' - 1, by omega⟩
    rw [List.nil_append, hstop, run_readFilters rfl] at hrun
    obtain ⟨rfl, rfl⟩ := Prod.mk.inj (Except.ok.inj hrun)
    exact .inr ⟨hstop.symm, _, [], List.suffix_refl _, rfl, hx.filters m levels e⟩
  | cons l ts =>
    rw [Template.readFilters, Template.readFilters]
    refine .accept_cons (.of_keeps (h.filtering levels ts) fun f us _ => h.filters levels (f.over e) us) ?_
    refine .accept_cons ?_ (.pure_cons e l ts)
    refine .of_keeps (Keeps.accept hx (inner_name "not") ts) fun negated us _ => ?_
    refine .of_keeps (Keeps.anyName hx us) fun name vs _ => ?_
    exact .of_keeps (h.testArguments levels e.lastLine vs) fun args ws _ => h.filters levels _ ws

include hx in
theorem readTestArguments (h : Follows g stop more last fuel fuel') (levels line : Nat) :
    Keeps stop more (readTestArguments (fuel + 1) levels line) (readTestArguments (fuel' + 1) levels line) := by
  rw [Template.readTestArguments, Template.readTestArguments]
  refine .accept_ite hx (inner_mark (by decide)) ((h.arguments levels true false).map _) ?_
  refine .peek_bind hx (fun l l' hl hl' => ?_) fun t ts => Keeps.ite ?_ (.pure _) _
  · rw [startsOperand_of_isInert hl, startsOperand_of_isInert hl']
    exact Keeps.pure [] []
  exact (h.signed levels).bind fun e => (h.postfix' levels e).bind fun e => .pure _

include hx in
/-- A comma in front of every item but the first one. -/
theorem optional {α : Type} (first : Bool) {x y : Reading α} (h : Keeps stop more x y) : Keeps stop more
    (if (!first) = true then do expect (Token.isMark .comma); x else x)
    (if (!first) = true then do expect (Token.isMark .comma); y else y) :=
  .ite ((Keeps.expect hx (within_mark .comma)).bind fun _ => h) h

include hx in
theorem readArguments (h : Follows g stop more last fuel fuel') (levels : Nat) (first named : Bool) :
    Keeps stop more (readArguments (fuel + 1) levels first named) (readArguments (fuel' + 1) levels first named) := by
  have hclosing : Within (Token.isMark .closeParen) := within_mark .closeParen
  have hassign : Inner (Token.isMark .assign) := inner_mark (by decide)
  have hrest (named : Bool) (a : Argument) := (h.arguments levels false named).bind fun rest => Keeps.pure (a :: rest)
  have hopen (named : Bool) (a : Argument) := (Refuses.arguments hx fuel levels named).bind
    fun rest => (pure (a :: rest) : Reading (List Argument))
  rw [Template.readArguments, Template.readArguments]
  dsimp only
  refine .accept_closing hx hclosing (.pure _) (optional hx first ?_)
    (.optional hx first (.accept_bind hx hclosing ((Refuses.expr hx fuel levels).bind _)))
  refine .accept_closing hx hclosing (.pure _) (fun ts => ?_) ((Refuses.expr hx fuel levels).bind _)
  refine (h.expr levels ts).bind_keeps (fun e => ?_) fun e => ?_
  · refine .accept_bind hx hassign.within ?_
    rw [Bool.and_false, if_neg (by simp)]
    exact .ite .malformed (hopen false _)
  · refine (Keeps.accept hx hassign).bind fun assigned => .ite (fun us => ?_) (.ite (.malformed _) (hrest false _))
    exact (h.expr levels us).bind_keeps (fun value => hopen true _) fun value => hrest true _

include hx in
theorem readItems (h : Follows g stop more last fuel fuel') (levels : Nat) (first : Bool) (closing : Mark) :
    Keeps stop more (readItems (fuel + 1) levels first closing) (readItems (fuel' + 1) levels first closing) := by
  have hclosing : Within (Token.isMark closing) := within_mark closing
  rw [Template.readItems, Template.readItems]
  dsimp only
  refine .accept_closing hx hclosing (.pure _) (optional hx first ?_)
    (.optional hx first (.accept_bind hx hclosing ((Refuses.expr hx fuel levels).bind _)))
  refine .accept_closing hx hclosing (.pure _) (fun ts => ?_) ((Refuses.expr hx fuel levels).bind _)
  exact (h.expr levels ts).bind_keeps (fun e => (Refuses.items hx fuel levels closing).bind _) fun e =>
    (h.items levels false closing).bind fun rest => .pure _

include hx in
theorem readMembers (h : Follows g stop more last fuel fuel') (levels : Nat) (first : Bool) :
    Keeps stop more (readMembers (fuel + 1) levels first) (readMembers (fuel' + 1) levels first) := by
  have hclosing : Inner (Token.isMark .closeBrace) := inner_mark (by decide)
  have hcolon : Within (Token.isMark .colon) := within_mark .colon
  rw [Template.readMembers, Template.readMembers]
  refine .accept_ite hx hclosing (.pure _) ?_
  dsimp only
  refine optional hx first (.accept_ite hx hclosing (.pure _) fun ts => ?_)
  refine (h.expr levels ts).bind_keeps (fun key => (Refuses.expect hx hcolon).bind _) fun key =>
    (Keeps.expect hx hcolon).bind fun _ us => ?_
  exact (h.expr levels us).bind_keeps (fun value => (Refuses.members hx fuel levels).bind _) fun value =>
    (h.members levels false).bind fun rest => .pure _

include hx in
/-- What stands in parentheses, up to the closing one. -/
theorem readParentheses (h : Follows g stop more last fuel fuel') (levels line : Nat) : Keeps stop more
    (do
      if ← accept (Token.isMark .closeParen) then pure (.ofItems line [])
      else
        let e ← Template.readExpr fuel levels
        if ← accept (Token.isMark .comma) then
          let rest ← Template.readItems fuel levels true .closeParen
          pure (.ofItems line (e :: rest))
        else
          expect (Token.isMark .closeParen)
          pure e)
    (do
      if ← accept (Token.isMark .closeParen) then pure (.ofItems line [])
      else
        let e ← Template.readExpr fuel' levels
        if ← accept (Token.isMark .comma) then
          let rest ← Template.readItems fuel' levels true .closeParen
          pure (.ofItems line (e :: rest))
        else
          expect (Token.isMark .closeParen)
          pure e) := by
  have hclosing : Within (Token.isMark .closeParen) := within_mark .closeParen
  have hcomma : Inner (Token.isMark .comma) := inner_mark (by decide)
  refine .accept_closing hx hclosing (.pure _) (fun ts => ?_) ((Refuses.expr hx fuel levels).bind _)
  refine (h.expr levels ts).bind_keeps (fun e => .accept_bind hx hcomma.within ((Refuses.expect hx hclosing).bind _))
    fun e => .accept_ite hx hcomma ?_ ((Keeps.expect hx hclosing).bind fun _ => .pure e)
  exact (h.items levels true .closeParen).bind fun rest => .pure _

include hx in
theorem readPrimary (h : Follows g stop more last fuel fuel') (levels : Nat) :
    Keeps stop more (readPrimary (fuel + 1) levels) (readPrimary (fuel' + 1) levels) := by
  cases levels with
  | zero =>
    rw [Template.readPrimary]
    exact .malformed _
  | succ levels =>
    rw [Template.readPrimary, Template.readPrimary]
    refine .take_bind (.take_bind hx fun kind line => rfl) fun l => ?_
    obtain ⟨token, line⟩ := l
    cases token with
    | name s =>
      dsimp only
      split <;> exact .pure _
    | text | int | float => exact .pure _
    | mark m =>
      cases m with
      | openParen => exact h.readParentheses hx levels line
      | openBracket => exact (h.items levels true .closeBracket).map _
      | openBrace => exact (h.members levels true).map _
      | _ => exact .malformed _
    | _ => exact .malformed _

end Follows

/-- With more fuel, every reader of expressions goes on alike up to a filter behind the tokens. -/
theorem follows (hx : Exchange g stop more last) {fuel fuel' : Nat} (hfuel : fuel < fuel') :
    Follows g stop more last fuel fuel' := by
  induction fuel generalizing fuel' with
  | zero =>
    constructor
    case conditions | joined | links =>
      intros
      refine ⟨fun a ts _ => ?_, fun a r ts' h => ?_⟩
      · simp only [readConditions, readJoined, readLinks]
        exact .malformed _
      · simp only [readConditions, readJoined, readLinks] at h
        cases h
    all_goals
      intros
      simp only [readExpr, readChoice, readLevel, readSigned, readPostfix, readIndex, readFilters, readFiltering,
        readTestArguments, readArguments, readItems, readMembers, readPrimary]
      exact .malformed _
  | succ fuel ih =>
    obtain ⟨fuel', rfl⟩ : ∃ m, fuel' = m + 1 := ⟨fuel' - 1, by omega⟩
    have hfuel : fuel < fuel' := by omega
    have h := ih hfuel
    exact ⟨h.readExpr, h.readChoice, h.readConditions hx, h.readLevel hx, h.readJoined hx, h.readLinks hx,
      h.readSigned hx, h.readPostfix hx, h.readIndex hx, h.readFilters hx hfuel, h.readFiltering hx,
      h.readTestArguments hx, h.readArguments hx, h.readItems hx, h.readMembers hx, h.readPrimary hx⟩

/-! ## Expressions up to the end of a tag -/

theorem barred_stop (kind : TagKind) (line : Nat) (rest : List Lexeme) : Barred (⟨.stop kind, line⟩ :: rest) := by
  rintro l hl
  obtain rfl := Option.some.inj hl
  exact .inl ⟨kind, rfl⟩

/-- Another end of a tag changes nothing. -/
theorem exchange_stop (hbarred : Barred stop) (kind : TagKind) (line : Nat) (rest : List Lexeme) :
    Exchange id stop (⟨.stop kind, line⟩ :: rest) (⟨.stop kind, line⟩ :: rest) where
  barred := hbarred
  inert := ⟨_, rest, rfl, rfl⟩
  filters fuel levels e := run_readFilters rfl (fuel + 1) levels e
  ended := ⟨_, rest, rfl, rfl, rfl⟩

/-- The end of parentheses changes nothing. -/
theorem exchange_closing (hbarred : Barred stop) (line : Nat) (rest : List Lexeme) :
    Exchange id stop (⟨.mark .closeParen, line⟩ :: rest) (⟨.mark .closeParen, line⟩ :: rest) where
  barred := hbarred
  inert := ⟨_, rest, rfl, rfl⟩
  filters fuel levels e := run_readFilters rfl (fuel + 1) levels e
  ended := ⟨_, rest, rfl, rfl, rfl⟩

/-- A filter in front of the end of a tag is applied to what is in front of it. -/
theorem exchange_filter (hbarred : Barred stop) (filter : Chars) (kind : TagKind) (line line' : Nat)
    (rest : List Lexeme) :
    Exchange (fun o => .filter o filter [] []) stop
      (⟨.mark .bar, line'⟩ :: ⟨.name filter, line'⟩ :: ⟨.stop kind, line⟩ :: rest) (⟨.stop kind, line⟩ :: rest) where
  barred := hbarred
  inert := ⟨_, _, rfl, rfl⟩
  filters fuel levels e := run_readFilters_filter rfl fuel levels e filter line'
  ended := ⟨_, rest, rfl, rfl, rfl⟩

section
variable {fuel fuel' levels : Nat} {ts ts' : List Lexeme} {e : Expr}

/-- No expression goes past the end of a tag or past a failure. -/
theorem exists_append_of_readExpr (hbarred : Barred stop) (h : (readExpr fuel levels).run (ts ++ stop) = .ok (e, ts')) :
    ∃ us, us <:+ ts ∧ ts' = us ++ stop := by
  have hx := exchange_stop hbarred .output 0 []
  rcases (follows hx (Nat.lt_succ_self fuel)).expr levels ts h with ⟨us, -, hus, rfl, -⟩ | ⟨rfl, -⟩
  · exact ⟨us, hus, rfl⟩
  · exact ⟨[], List.nil_suffix, rfl⟩

theorem eq_nil_of_append_eq {us : List Lexeme} (h : stop = us ++ stop) : us = [] := by
  have hlength := congrArg List.length h
  rw [List.length_append] at hlength
  exact List.eq_nil_of_length_eq_zero (by omega)

/-- What stands behind an operand makes something of it. -/
theorem Exchange.readOperand (hx : Exchange g stop more last)
    (h : (readLevel fuel levels .operand).run (ts ++ stop) = .ok (e, stop)) (hfuel : fuel < fuel') :
    (readLevel fuel' levels .operand).run (ts ++ more) = .ok (g e, last) := by
  cases fuel with
  | zero =>
    rw [readLevel] at h
    cases h
  | succ fuel =>
    obtain ⟨fuel', rfl⟩ : ∃ m, fuel' = m + 1 := ⟨fuel' - 1, by omega⟩
    rcases (follows hx (Nat.lt_of_succ_lt_succ hfuel)).readOperand levels ts h with
      ⟨us, hne, -, hend, -⟩ | ⟨-, _, -, -, rfl, hrun⟩
    · exact absurd (eq_nil_of_append_eq hend) hne
    · exact hrun

/-- What stands behind a whole expression makes something of its last operand. -/
theorem Exchange.readExpr (hx : Exchange g stop more last)
    (h : (readExpr fuel levels).run (ts ++ stop) = .ok (e, stop)) (hfuel : fuel < fuel') :
    ∃ e', LastChanged g stop ts e e' ∧ (readExpr fuel' levels).run (ts ++ more) = .ok (e', last) := by
  rcases (follows hx hfuel).expr levels ts h with ⟨us, hne, -, hend, -⟩ | ⟨-, e', us, hus, hlast, hrun⟩
  · exact absurd (eq_nil_of_append_eq hend) hne
  · obtain ⟨p, o, he, he', fuel, levels, vs, hvs, hoperand⟩ := hlast
    exact ⟨e', ⟨p, o, he, he', fuel, levels, vs, hvs.trans hus, hoperand⟩, hrun⟩

/-- With more fuel and in front of what changes nothing, an expression is the same. -/
theorem Exchange.run_readExpr (hx : Exchange id stop more more)
    (h : (Template.readExpr fuel levels).run (ts ++ stop) = .ok (e, stop)) (hfuel : fuel < fuel') :
    (Template.readExpr fuel' levels).run (ts ++ more) = .ok (e, more) := by
  obtain ⟨_, ⟨p, o, rfl, rfl, -⟩, hrun⟩ := hx.readExpr h hfuel
  exact hrun

/-- With more fuel and in front of what changes nothing, what is read on a level is the same. -/
theorem Exchange.run_readLevel (hx : Exchange id stop more more) {l : Level}
    (h : (readLevel fuel levels l).run (ts ++ stop) = .ok (e, stop)) (hfuel : fuel < fuel') :
    (readLevel fuel' levels l).run (ts ++ more) = .ok (e, more) := by
  rcases (follows hx hfuel).level levels l ts h with ⟨us, hne, -, hend, -⟩ | ⟨-, _, -, -, ⟨p, o, rfl, rfl, -⟩, hrun⟩
  · exact absurd (eq_nil_of_append_eq hend) hne
  · exact hrun

/-- With more fuel and in front of another end of a tag, an expression is the same. -/
theorem run_readExpr_stop (hbarred : Barred stop) (h : (readExpr fuel levels).run (ts ++ stop) = .ok (e, stop))
    (hfuel : fuel < fuel') (kind : TagKind) (line : Nat) (rest : List Lexeme) :
    (readExpr fuel' levels).run (ts ++ ⟨.stop kind, line⟩ :: rest) = .ok (e, ⟨.stop kind, line⟩ :: rest) :=
  (exchange_stop hbarred kind line rest).run_readExpr h hfuel

end

end

end ViewBridge.Template
