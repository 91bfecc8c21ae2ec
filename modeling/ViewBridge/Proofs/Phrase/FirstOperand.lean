import ViewBridge.Proofs.Phrase.LastOperand
/-!
# The first operand

What is joined to an expression from the left, by an operator in front of it, is joined to the first operand that is
tighter than the operator, however much the expression has behind that operand. So every reader of expressions reads
the same with the operator in front as without, except that it finds that operand joined.

Results:
* `FirstPlace.fill_eq_self_iff`: only the place of the whole expression leaves an operand as it is.
* `grows_readJoined`, `grows_readConditions`: a reader goes on alike from whatever is in front.
* `grafted_readLevel`: the readers of the levels, with an operand and an operator in front.
* `exists_fill_of_readExpr`: what is read of an expression with an operand and an operator in front.
* `StartsIn.eq_of_run`: the first operand is the only one that is read.
-/
namespace ViewBridge.Template

open Reading

/-! ## The first operand -/

/-- What stands behind an operand and makes it part of a larger expression. Where a condition has no alternative, the
line of that is the line of what is in front. -/
inductive FirstStep where
  | binary (op : Operator) (b : Expr)
  | both (b : Expr)
  | either (b : Expr)
  | compare (links : List ((Operator × Bool) × Expr))
  | choice (test no : Expr)
  | condition (test : Expr)

/-- The larger expression. -/
def FirstStep.around : FirstStep → Expr → Expr
  | binary op b, e => .binary op e b
  | both b, e => .both e b
  | either b, e => .either e b
  | compare links, e => .compare e links
  | choice test no, e => .cond test e no
  | condition test, e => .cond test e (.const e.lastLine .undefined)

/-- The place of the first operand of an expression: what stands behind it, nearest first. -/
abbrev FirstPlace := List FirstStep

/-- The expression with an operand in that place. -/
def FirstPlace.fill (p : FirstPlace) (o : Expr) : Expr := p.foldl (fun e s => s.around e) o

namespace FirstPlace

theorem fill_append (p q : FirstPlace) (o : Expr) : fill (p ++ q) o = fill q (fill p o) := List.foldl_append

theorem sizeOf_lt_around (s : FirstStep) (e : Expr) : sizeOf e < sizeOf (s.around e) := by
  cases s <;> simp only [FirstStep.around, Expr.binary.sizeOf_spec, Expr.both.sizeOf_spec, Expr.either.sizeOf_spec,
    Expr.compare.sizeOf_spec, Expr.cond.sizeOf_spec] <;> omega

theorem sizeOf_le_fill (p : FirstPlace) (o : Expr) : sizeOf o ≤ sizeOf (p.fill o) := by
  induction p generalizing o with
  | nil => exact Nat.le_refl _
  | cons s p ih => exact Nat.le_trans (Nat.le_of_lt (sizeOf_lt_around s o)) (ih (s.around o))

/-- An operand is all of an expression only if nothing stands behind it. -/
theorem fill_eq_self_iff {p : FirstPlace} {o : Expr} : p.fill o = o ↔ p = [] := by
  constructor
  · intro h
    cases p with
    | nil => rfl
    | cons s p =>
      have hle := sizeOf_le_fill p (s.around o)
      have hlt := sizeOf_lt_around s o
      rw [show fill p (s.around o) = o from h] at hle
      omega
  · rintro rfl
    rfl

end FirstPlace

/-- Tokens start with an expression of a level of binding, where so many levels of nesting are allowed. -/
def StartsIn (levels : Nat) (l : Level) (stop ts : List Lexeme) (o : Expr) : Prop :=
  ∃ fuel us, us <:+ ts ∧ (readLevel fuel levels l).run (ts ++ stop) = .ok (o, us ++ stop)

/-! ## Going on from an operand -/

section
variable {stop : List Lexeme}

/-- Readers that go on from an earlier result go on alike from any other one. -/
def Grows (stop : List Lexeme) (F G : Expr → Reading Expr) : Prop :=
  ∀ ⦃e us e' ts'⦄, (F e).run (us ++ stop) = .ok (e', ts') → ∃ (p : FirstPlace) (vs : List Lexeme),
    e' = p.fill e ∧ vs <:+ us ∧ ts' = vs ++ stop ∧ ∀ a, (G a).run (us ++ stop) = .ok (p.fill a, vs ++ stop)

theorem LastChanged.eq_of_id {ts : List Lexeme} {e e' : Expr} (h : LastChanged id stop ts e e') : e' = e := by
  obtain ⟨p, o, rfl, rfl, -⟩ := h
  rfl

theorem EndsAt.run {α : Type} {R : List Lexeme → α → α → Prop} {x y : Reading α} {ts ts' : List Lexeme} {a : α}
    (h : EndsAt stop stop stop R x y ts) (hR : ∀ us a a', R us a a' → a' = a)
    (hrun : x.run (ts ++ stop) = .ok (a, ts')) :
    ∃ us, us <:+ ts ∧ ts' = us ++ stop ∧ y.run (ts ++ stop) = .ok (a, ts') := by
  rcases h hrun with ⟨us, -, hus, rfl, hy⟩ | ⟨rfl, a', us, -, ha, hy⟩
  · exact ⟨us, hus, rfl, hy⟩
  · rw [hR us a a' ha] at hy
    exact ⟨[], List.nil_suffix, rfl, hy⟩

theorem GoesOn.run {α β : Type} {R : List Lexeme → β → β → Prop} {F G : α → Reading β} {k : α → β}
    (h : GoesOn stop stop stop R F G k) (hR : ∀ us b b', R us b b' → b' = b) {a : α} {b : β} {ts ts' : List Lexeme}
    (hrun : (F a).run (ts ++ stop) = .ok (b, ts')) :
    ∃ us, us <:+ ts ∧ ts' = us ++ stop ∧ (G a).run (ts ++ stop) = .ok (b, ts') := by
  cases ts with
  | nil =>
    obtain ⟨rfl, rfl, hG⟩ := h.stops hrun
    exact ⟨[], List.nil_suffix, rfl, hG a⟩
  | cons l ts => exact (h.ends a (l :: ts) (List.cons_ne_nil l ts)).run hR hrun

/-- An operator joins what is in front to what is behind. -/
theorem exists_step_of_join? {l : Level} {t : Token} {f : Expr → Expr → Expr} (h : l.join? t = some f) (b : Expr) :
    ∃ s : FirstStep, ∀ a, f a b = s.around a := by
  cases t with
  | mark m =>
    obtain ⟨op, -, rfl⟩ := Option.map_eq_some_iff.1 h
    exact ⟨.binary op b, fun _ => rfl⟩
  | name s =>
    simp only [Level.join?] at h
    split_ifs at h
    · obtain rfl := Option.some.inj h
      exact ⟨.either b, fun _ => rfl⟩
    · obtain rfl := Option.some.inj h
      exact ⟨.both b, fun _ => rfl⟩
  | _ => cases h

/-- The operators of a level go on from anything. -/
theorem exists_fill_of_readJoined {fuel levels : Nat} {l : Level} {a e : Expr} {ts ts' : List Lexeme}
    (h : (readJoined fuel levels l a).run ts = .ok (e, ts')) :
    ∃ p : FirstPlace, e = p.fill a ∧ ∀ a', (readJoined fuel levels l a').run ts = .ok (p.fill a', ts') := by
  induction fuel generalizing a ts with
  | zero =>
    rw [readJoined] at h
    cases h
  | succ fuel ih =>
    rw [readJoined] at h
    obtain ⟨t, _, hpeek, h⟩ := eq_of_run_bind h
    cases hjoin : l.join? t.token with
    | none =>
      rw [hjoin] at h
      obtain ⟨rfl, rfl⟩ := Prod.mk.inj (Except.ok.inj h)
      refine ⟨[], rfl, fun a' => ?_⟩
      rw [readJoined, run_bind_ok hpeek, hjoin]
      rfl
    | some f =>
      rw [hjoin] at h
      obtain ⟨_, _, htake, h⟩ := eq_of_run_bind h
      obtain ⟨b, _, hlevel, h⟩ := eq_of_run_bind h
      obtain ⟨s, hs⟩ := exists_step_of_join? hjoin b
      obtain ⟨p, rfl, hmore⟩ := ih h
      refine ⟨s :: p, by rw [hs]; rfl, fun a' => ?_⟩
      have hgoes := hmore (f a' b)
      rw [readJoined, run_bind_ok hpeek, hjoin]
      simp only
      rw [run_bind_ok htake, run_bind_ok hlevel, hgoes, hs]
      rfl

/-- The conditions behind an expression go on from anything. -/
theorem exists_fill_of_readConditions {fuel levels : Nat} {a e : Expr} {ts ts' : List Lexeme}
    (h : (readConditions fuel levels a).run ts = .ok (e, ts')) :
    ∃ p : FirstPlace, e = p.fill a ∧ ∀ a', (readConditions fuel levels a').run ts = .ok (p.fill a', ts') := by
  induction fuel generalizing a ts with
  | zero =>
    rw [readConditions] at h
    cases h
  | succ fuel ih =>
    rw [readConditions] at h
    obtain ⟨isIf, _, hif, h⟩ := eq_of_run_bind h
    cases isIf with
    | false =>
      obtain ⟨rfl, rfl⟩ := Prod.mk.inj (Except.ok.inj h)
      refine ⟨[], rfl, fun a' => ?_⟩
      rw [readConditions, run_bind_ok hif]
      rfl
    | true =>
      obtain ⟨test, _, htest, h⟩ := eq_of_run_bind h
      obtain ⟨isElse, _, helse, h⟩ := eq_of_run_bind h
      cases isElse with
      | false =>
        obtain ⟨p, rfl, hmore⟩ := ih h
        refine ⟨.condition test :: p, rfl, fun a' => ?_⟩
        rw [readConditions, run_bind_ok hif, if_pos rfl, run_bind_ok htest, run_bind_ok helse]
        exact hmore _
      | true =>
        obtain ⟨no, _, hno, h⟩ := eq_of_run_bind h
        obtain ⟨p, rfl, hmore⟩ := ih h
        refine ⟨.choice test no :: p, rfl, fun a' => ?_⟩
        rw [readConditions, run_bind_ok hif, if_pos rfl, run_bind_ok htest, run_bind_ok helse, if_pos rfl,
          run_bind_ok hno]
        exact hmore _

section
variable {fuel fuel' levels : Nat} (h : Follows id stop stop stop fuel fuel')
include h

theorem grows_readJoined (levels : Nat) (l : Level) :
    Grows stop (readJoined fuel levels l) (readJoined fuel' levels l) := by
  intro e us e' ts' hrun
  obtain ⟨vs, hvs, rfl, hmore⟩ := (h.joined levels l).run (fun _ _ _ => LastChanged.eq_of_id) hrun
  obtain ⟨p, rfl, hgoes⟩ := exists_fill_of_readJoined hmore
  exact ⟨p, vs, rfl, hvs, rfl, hgoes⟩

theorem grows_readConditions (levels : Nat) :
    Grows stop (readConditions fuel levels) (readConditions fuel' levels) := by
  intro e us e' ts' hrun
  obtain ⟨vs, hvs, rfl, hmore⟩ := (h.conditions levels).run (fun _ _ _ => LastChanged.eq_of_id) hrun
  obtain ⟨p, rfl, hgoes⟩ := exists_fill_of_readConditions hmore
  exact ⟨p, vs, rfl, hvs, rfl, hgoes⟩

/-- A chain of comparisons goes on from anything. -/
theorem grows_readLinks (levels : Nat) : Grows stop
    (fun a => do
      let links ← readLinks fuel levels
      pure (if links.isEmpty then a else .compare a links))
    (fun a => do
      let links ← readLinks fuel' levels
      pure (if links.isEmpty then a else .compare a links)) := by
  intro e us e' ts' hrun
  obtain ⟨links, mid, hlinks, hmore⟩ := eq_of_run_bind hrun
  obtain ⟨rfl, rfl⟩ := Prod.mk.inj (Except.ok.inj hmore)
  have hid : ∀ us (links links' : List ((Operator × Bool) × Expr)), LastLinkChanged id stop us links links' →
      links' = links := by
    rintro us _ _ ⟨init, op, e, e', rfl, rfl, hchanged⟩
    rw [hchanged.eq_of_id]
  obtain ⟨vs, hvs, rfl, hrun'⟩ := (h.links levels).run (a := ()) hid hlinks
  refine ⟨if links.isEmpty then [] else [.compare links], vs, ?_, hvs, rfl, fun a => ?_⟩
  · split <;> rfl
  · rw [run_bind_ok hrun']
    split <;> rfl

end

/-! ## An operand and an operator in front -/

/-- A reading, and the same with more tokens in front, which make something of the operand that is read first. -/
def Grafted (levels : Nat) (l : Level) (f : Expr → Expr) (stop lead ts : List Lexeme) (x y : Reading Expr) : Prop :=
  ∀ ⦃e ts'⦄, x.run (ts ++ stop) = .ok (e, ts') → ∃ (p : FirstPlace) (o : Expr) (us : List Lexeme),
    e = p.fill o ∧ StartsIn levels l stop ts o ∧ us <:+ ts ∧ ts' = us ++ stop ∧
      y.run (lead ++ (ts ++ stop)) = .ok (p.fill (f o), us ++ stop)

theorem Grafted.bind {levels : Nat} {l : Level} {f : Expr → Expr} {lead ts : List Lexeme} {x y : Reading Expr}
    {F G : Expr → Reading Expr} (h : Grafted levels l f stop lead ts x y) (hF : Grows stop F G) :
    Grafted levels l f stop lead ts (x >>= F) (y >>= G) := by
  intro e ts' hrun
  obtain ⟨a, mid, hx, hmore⟩ := eq_of_run_bind hrun
  obtain ⟨p, o, us, rfl, hstarts, hus, rfl, hy⟩ := h hx
  obtain ⟨q, vs, rfl, hvs, rfl, hG⟩ := hF hmore
  refine ⟨p ++ q, o, vs, (FirstPlace.fill_append p q o).symm, hstarts, hvs.trans hus, rfl, ?_⟩
  rw [run_bind_ok hy, hG, FirstPlace.fill_append]

namespace Level

variable {l : Level} {m : Mark} {op : Operator}

theorem operator?_of_rank_lt (h : l.operator? m = some op) {l' : Level} (hlt : l'.rank < l.rank) :
    l'.operator? m = none := by
  cases l <;> cases m <;> cases h <;> cases l' <;> first
    | rfl
    | exact absurd hlt (by decide)

/-- The mark of an operator is none of those that belong to an operand. -/
theorem ne_of_operator? (h : l.operator? m = some op) : ∀ m' ∈ [Mark.dot, .openBracket, .openParen, .bar], m ≠ m' := by
  rintro m' hm rfl
  simp only [List.mem_cons, List.not_mem_nil, or_false] at hm
  rcases hm with rfl | rfl | rfl | rfl <;> cases l <;> cases h

theorem rank_of_operator? (h : l.operator? m = some op) : 0 < l.rank ∧ l.rank ≤ 4 := by
  cases l <;> first
    | cases h
    | decide

theorem eq_of_rank_eq {l' : Level} (h : l.rank = l'.rank) : l = l' := by
  cases l <;> cases l' <;> first
    | rfl
    | cases h

/-- The levels of arithmetic operators read an operand of the next level, and then the operators. -/
theorem readLevel_eq (hpos : 0 < l.rank) (hle : l.rank ≤ 4) (fuel levels : Nat) :
    readLevel (fuel + 1) levels l = (do
      let a ← readLevel fuel levels l.tighter
      readJoined fuel levels l a) := by
  cases l <;> first
    | exact absurd hpos (by decide)
    | exact absurd hle (by decide)
    | rw [readLevel] <;> (intro h; cases h)

end Level

section
variable {l : Level} {m : Mark} {op : Operator} {name : Chars} {levels : Nat} {ts : List Lexeme}

/-- A name is an operand up to a mark that is no operator there. -/
theorem run_readLevel_name_mark (hname : NamesVariable name)
    (hm : ∀ m' ∈ [Mark.dot, .openBracket, .openParen, .bar], m ≠ m')
    {l : Level} (hl : l.rank ≤ 3) (hnone : ∀ l' : Level, l'.rank ≤ l.rank → l'.operator? m = none) (fuel levels line : Nat)
    (ts : List Lexeme) : (readLevel (fuel + 3 + l.rank) (levels + 1) l).run (⟨.name name, line⟩ :: ⟨.mark m, line⟩ :: ts) =
      .ok (.var line name, ⟨.mark m, line⟩ :: ts) := by
  have hmark (m' : Mark) (hm' : m' ∈ [Mark.dot, .openBracket, .openParen, .bar]) : (Token.mark m).isMark m' = false :=
    beq_eq_false_iff_ne.2 (hm m' hm').symm
  have hoperand : (readLevel (fuel + 3) (levels + 1) .operand).run (⟨.name name, line⟩ :: ⟨.mark m, line⟩ :: ts) =
      .ok (.var line name, ⟨.mark m, line⟩ :: ts) := by
    rw [readLevel, run_bind_ok (run_readSigned_name hname.2 fuel line _),
      run_bind_ok (run_readPostfix rfl (hmark _ (by decide)) (hmark _ (by decide)) (hmark _ (by decide)) (fuel + 1) _ ts),
      readFilters, run_bind_ok (run_accept_of_not rfl (hmark _ (by decide)) ts), if_neg (by simp),
      run_bind_ok (run_accept_of_not rfl rfl ts)]
    rfl
  have hjoined {l : Level} (hl : l.operator? m = none) (fuel : Nat) (a : Expr) :
      (readJoined (fuel + 1) (levels + 1) l a).run (⟨.mark m, line⟩ :: ts) = .ok (a, ⟨.mark m, line⟩ :: ts) := by
    rw [readJoined, run_bind_ok (run_peek rfl ts)]
    simp only [Level.join?, hl, Option.map_none]
    rfl
  induction hrank : l.rank generalizing l with
  | zero =>
    obtain rfl : l = .operand := Level.eq_of_rank_eq hrank
    exact hoperand
  | succ n ih =>
    have htighter : l.tighter.rank = n := by
      rw [Level.tighter_rank, hrank]
      rfl
    have hoperand' := ih (l := l.tighter) (by omega) (fun l' hl' => hnone l' (by omega)) htighter
    rw [← Nat.add_assoc, Level.readLevel_eq (by omega) (by omega), run_bind_ok hoperand', Nat.add_right_comm fuel 3 n]
    exact hjoined (hnone l (Nat.le_refl _)) _ _

/-- The tokens of a name and of an operator behind it. -/
def leadLexemes (name : Chars) (m : Mark) (line : Nat) : List Lexeme := [⟨.name name, line⟩, ⟨.mark m, line⟩]

/-- The first operand on the level of the operator is joined to the name. -/
theorem grafted_readLevel_self {fuel fuel' : Nat} (h : Follows id stop stop stop fuel fuel')
    (hop : l.operator? m = some op) (hname : NamesVariable name) (hfuel : 5 ≤ fuel') (levels line : Nat)
    (ts : List Lexeme) : Grafted (levels + 1) l.tighter (.binary op (.var line name)) stop (leadLexemes name m line) ts
      (readLevel (fuel + 1) (levels + 1) l) (readLevel (fuel' + 2) (levels + 1) l) := by
  obtain ⟨hpos, hle⟩ := Level.rank_of_operator? hop
  have hrank := Level.tighter_rank l
  have hlead : (readLevel (fuel' + 1) (levels + 1) l.tighter).run (⟨.name name, line⟩ :: ⟨.mark m, line⟩ :: (ts ++ stop)) =
      .ok (.var line name, ⟨.mark m, line⟩ :: (ts ++ stop)) := by
    obtain ⟨k, hk⟩ : ∃ k, fuel' + 1 = k + 3 + l.tighter.rank := ⟨fuel' - 2 - l.tighter.rank, by omega⟩
    rw [hk]
    exact run_readLevel_name_mark hname (Level.ne_of_operator? hop) (by omega)
      (fun l' hl' => Level.operator?_of_rank_lt hop (by omega)) k levels line _
  intro e ts' hrun
  rw [Level.readLevel_eq hpos hle] at hrun ⊢
  obtain ⟨o, mid, hoperand, hmore⟩ := eq_of_run_bind hrun
  obtain ⟨us, hus, rfl, hoperand'⟩ := (h.level (levels + 1) l.tighter ts).run (fun _ _ _ => LastChanged.eq_of_id) hoperand
  obtain ⟨p, vs, rfl, hvs, rfl, hgrows⟩ := grows_readJoined h (levels + 1) l hmore
  refine ⟨p, o, vs, rfl, ⟨fuel, us, hus, hoperand⟩, hvs.trans hus, rfl, ?_⟩
  have hjoin : l.join? (.mark m) = some (.binary op) := congrArg (Option.map Expr.binary) hop
  rw [leadLexemes, List.cons_append, List.singleton_append, run_bind_ok hlead, readJoined, run_bind_ok (run_peek rfl _),
    hjoin]
  simp only
  rw [run_bind_ok (run_take rfl _), run_bind_ok hoperand', hgrows]

/-- Tokens that do not start with a negation. -/
def Unnegated (ts : List Lexeme) : Prop := ∀ t ∈ ts.head?, t.token.isName "not" = false

/-- Where neither tokens nor what is in front of them start with a negation, nothing is negated. -/
theorem Grafted.negation {l' : Level} {f : Expr → Expr} {kind : TagKind} {line line' : Nat} {rest : List Lexeme}
    {fuel fuel' : Nat} (h : Grafted levels l' f (⟨.stop kind, line'⟩ :: rest) (leadLexemes name m line) ts
      (readLevel fuel levels .comparison) (readLevel fuel' levels .comparison)) (hname : NamesVariable name)
    (hnot : Unnegated ts) : Grafted levels l' f (⟨.stop kind, line'⟩ :: rest) (leadLexemes name m line) ts
      (readLevel (fuel + 1) levels .negation) (readLevel (fuel' + 1) levels .negation) := by
  intro e ts' hrun
  rw [readLevel] at hrun
  obtain ⟨b, mid, haccept, hmore⟩ := eq_of_run_bind hrun
  obtain ⟨t, us, hts, ⟨rfl, ht, rfl⟩ | ⟨rfl, rfl⟩⟩ := eq_of_run_accept haccept
  · cases ts with
    | nil =>
      obtain ⟨rfl, -⟩ := List.cons.inj hts
      cases ht
    | cons l ts =>
      obtain ⟨rfl, -⟩ := List.cons.inj hts
      rw [hnot _ rfl] at ht
      cases ht
  · rw [← hts] at hmore
    obtain ⟨p, o, vs, rfl, hstarts, hvs, rfl, hy⟩ := h hmore
    refine ⟨p, o, vs, rfl, hstarts, hvs, rfl, ?_⟩
    have hlead : (Token.name name).isName "not" = false := beq_eq_false_iff_ne.2 hname.1
    rw [readLevel, leadLexemes, List.cons_append, run_bind_ok (run_accept_of_not rfl hlead _)]
    exact hy

/-- So it is on all looser levels. -/
theorem grafted_readLevel {kind : TagKind} {line' : Nat} {rest : List Lexeme}
    (hop : l.operator? m = some op) (hname : NamesVariable name) (hnot : Unnegated ts) (levels line : Nat) {l' : Level}
    (hl' : l.rank ≤ l'.rank) {fuel fuel' : Nat} (hfuel : fuel + 8 ≤ fuel') :
    Grafted (levels + 1) l.tighter (.binary op (.var line name)) (⟨.stop kind, line'⟩ :: rest) (leadLexemes name m line) ts
      (readLevel fuel (levels + 1) l') (readLevel fuel' (levels + 1) l') := by
  have hfollows {n n' : Nat} (h : n < n') :=
    follows (exchange_stop (barred_stop kind line' rest) kind line' rest) h
  induction hd : l'.rank - l.rank generalizing l' fuel fuel' with
  | zero =>
    obtain rfl : l = l' := Level.eq_of_rank_eq (by omega)
    cases fuel with
    | zero =>
      intro e ts' hrun
      rw [readLevel] at hrun
      cases hrun
    | succ fuel =>
      obtain ⟨n, rfl⟩ : ∃ n, fuel' = n + 2 := ⟨fuel' - 2, by omega⟩
      exact grafted_readLevel_self (hfollows (by omega)) hop hname (by omega) levels line ts
  | succ d ih =>
    have htighter := Level.tighter_rank l'
    cases fuel with
    | zero =>
      intro e ts' hrun
      rw [readLevel] at hrun
      cases hrun
    | succ fuel =>
      obtain ⟨n, rfl⟩ : ∃ n, fuel' = n + 1 := ⟨fuel' - 1, by omega⟩
      have hnext := @ih l'.tighter (by omega) fuel n (by omega) (by omega)
      have hmore := hfollows (show fuel < n by omega)
      cases l' with
      | operand => exact absurd hd (by simp [Level.rank])
      | negation => exact hnext.negation hname hnot
      | comparison =>
        rw [readLevel, readLevel]
        exact hnext.bind (grows_readLinks hmore (levels + 1))
      | _ =>
        rw [readLevel, readLevel]
        · exact hnext.bind (grows_readJoined hmore (levels + 1) _)
        all_goals
          intro h
          cases h

/-- What is joined to an expression from the left is joined to its first operand on the level of the operator. -/
theorem exists_fill_of_readExpr {kind : TagKind} {line' : Nat} {rest : List Lexeme} {e : Expr}
    (hop : l.operator? m = some op) (hname : NamesVariable name) (hnot : Unnegated ts) {fuel fuel' : Nat}
    (h : (readExpr fuel (levels + 2)).run (ts ++ ⟨.stop kind, line'⟩ :: rest) = .ok (e, ⟨.stop kind, line'⟩ :: rest))
    (hfuel : fuel + 8 ≤ fuel') (line : Nat) : ∃ (p : FirstPlace) (o : Expr), e = p.fill o ∧
      StartsIn (levels + 1) l.tighter (⟨.stop kind, line'⟩ :: rest) ts o ∧
      (readExpr fuel' (levels + 2)).run (leadLexemes name m line ++ (ts ++ ⟨.stop kind, line'⟩ :: rest)) =
        .ok (p.fill (.binary op (.var line name) o), ⟨.stop kind, line'⟩ :: rest) := by
  obtain ⟨hpos, hle⟩ := Level.rank_of_operator? hop
  obtain ⟨n, rfl⟩ : ∃ n, fuel' = n + 2 := ⟨fuel' - 2, by omega⟩
  cases fuel with
  | zero =>
    rw [readExpr] at h
    cases h
  | succ fuel =>
    cases fuel with
    | zero =>
      rw [readExpr, readChoice] at h
      cases h
    | succ fuel =>
      have hlevel := @grafted_readLevel _ _ _ _ _ kind line' rest hop hname hnot levels line
        .either (Nat.le_trans hle (by decide)) _ _ (show fuel + 8 ≤ n by omega)
      have hmore := follows (exchange_stop (barred_stop kind line' rest) kind line' rest) (show fuel < n by omega)
      have hchoice := hlevel.bind (grows_readConditions hmore (levels + 1))
      rw [readExpr, readChoice] at h
      obtain ⟨p, o, us, rfl, hstarts, -, hend, hrun⟩ := hchoice h
      refine ⟨p, o, rfl, hstarts, ?_⟩
      rw [readExpr, readChoice, hrun, ← hend]

/-! ### What expressions start with -/

namespace StartsIn

variable {kind : TagKind} {line' : Nat} {rest : List Lexeme} {o : Expr}

/-- Another end of the tag changes nothing. -/
theorem exchange (h : StartsIn levels l (⟨.stop kind, line'⟩ :: rest) ts o) (kind' : TagKind) (line : Nat)
    (rest' : List Lexeme) : StartsIn levels l (⟨.stop kind', line⟩ :: rest') ts o := by
  obtain ⟨fuel, us, hus, hrun⟩ := h
  have hx := exchange_stop (barred_stop kind line' rest) kind' line rest'
  rcases (follows hx (Nat.lt_succ_self fuel)).level levels l ts hrun with
    ⟨vs, -, -, hend, hrun'⟩ | ⟨hend, o', vs, -, hchanged, hrun'⟩
  · obtain rfl := List.append_cancel_right hend
    exact ⟨fuel + 1, us, hus, hrun'⟩
  · obtain rfl := hchanged.eq_of_id
    exact ⟨fuel + 1, [], List.nil_suffix, hrun'⟩

/-- Where all tokens are an expression of the level, they start with that. -/
theorem eq_of_run (h : StartsIn levels l (⟨.stop kind, line'⟩ :: rest) ts o) {fuel : Nat} {e : Expr}
    {ts' : List Lexeme} (hrun : (readLevel fuel levels l).run (ts ++ ⟨.stop kind, line'⟩ :: rest) = .ok (e, ts')) :
    o = e := by
  obtain ⟨fuel', us, -, hrun'⟩ := h
  have hx := exchange_stop (barred_stop kind line' rest) kind line' rest
  have hid : ∀ us (e e' : Expr), LastChanged id (⟨.stop kind, line'⟩ :: rest) us e e' → e' = e :=
    fun _ _ _ => LastChanged.eq_of_id
  obtain ⟨-, -, -, hmore⟩ := ((follows hx (show fuel < fuel + fuel' + 1 by omega)).level levels l ts).run hid hrun
  obtain ⟨-, -, -, hmore'⟩ := ((follows hx (show fuel' < fuel + fuel' + 1 by omega)).level levels l ts).run hid hrun'
  rw [hmore] at hmore'
  exact (Prod.mk.inj (Except.ok.inj hmore')).1.symm

end StartsIn

end

end

end ViewBridge.Template
