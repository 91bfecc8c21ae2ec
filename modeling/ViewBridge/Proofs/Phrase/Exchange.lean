import ViewBridge.Proofs.Call.Reading
/-!
# What stands behind an expression

Readers look one token ahead, so what stands behind an expression can have a say in how the end of it is read. Two
readings of the same tokens, in front of different ones, are compared: they leave off alike before the end of the
tokens, and what happens at the end is a relation between the results.

Results:
* `Keeps.bind`, `Keeps.accept`, `Keeps.peek_bind`: readings that leave off alike, put together.
* `EndsAt.bind`: a reading that may come to the end, in front of one that goes on if it did not.
* `EndsAt.bind_keeps`: a reading in front of one that needs more tokens leaves off before the end.
-/
namespace ViewBridge.Template

open Reading

/-! ## What stands behind an expression -/

/-- A token that no reader of expressions takes, except for those of filters and of what stands in parentheses. -/
def Token.isInert : Token → Bool
  | .stop _ | .mark .bar | .mark .closeParen => true
  | _ => false

/-- Tokens that no reader of expressions goes past. -/
def Barred (stop : List Lexeme) : Prop :=
  ∀ l ∈ stop.head?, (∃ kind, l.token = .stop kind) ∨ ∃ kind, l.token = .failure kind

/-- Other tokens take the place of those behind an expression. They start with the end of a tag or of parentheses, or
with a filter, and the reader of filters makes something of them and leaves such an end. -/
structure Exchange (g : Expr → Expr) (stop more last : List Lexeme) : Prop where
  barred : Barred stop
  inert : ∃ l rest, more = l :: rest ∧ l.token.isInert = true
  filters : ∀ fuel levels e, (readFilters (fuel + 2) levels e).run more = .ok (g e, last)
  ended : ∃ l rest, last = l :: rest ∧ l.token.isInert = true ∧ l.token.endsExpr = true

section
variable {α β : Type} {stop more last : List Lexeme} {g : Expr → Expr}

/-- One reading in front of some tokens leaves off where another one does in front of others, with the same result. -/
def KeepsAt (stop more : List Lexeme) (x y : Reading α) (ts : List Lexeme) : Prop :=
  ∀ ⦃a ts'⦄, x.run (ts ++ stop) = .ok (a, ts') →
    ∃ us, us <:+ ts ∧ ts' = us ++ stop ∧ y.run (ts ++ more) = .ok (a, us ++ more)

/-- Readings that always leave off alike. -/
def Keeps (stop more : List Lexeme) (x y : Reading α) : Prop := ∀ ts, KeepsAt stop more x y ts

/-- The readings leave off alike before the end of the tokens; or one comes to their end and the other one goes on to
the end of the tag, with a related result. -/
def EndsAt (stop more last : List Lexeme) (R : List Lexeme → α → α → Prop) (x y : Reading α) (ts : List Lexeme) : Prop :=
  ∀ ⦃a ts'⦄, x.run (ts ++ stop) = .ok (a, ts') →
    (∃ us, us ≠ [] ∧ us <:+ ts ∧ ts' = us ++ stop ∧ y.run (ts ++ more) = .ok (a, us ++ more)) ∨
      ts' = stop ∧ ∃ a' us, us <:+ ts ∧ R us a a' ∧ y.run (ts ++ more) = .ok (a', last)

/-- Readings that go on from an earlier result: they have nothing more to read behind the last token. -/
structure GoesOn (stop more last : List Lexeme) (R : List Lexeme → β → β → Prop) (F G : α → Reading β) (h : α → β) :
    Prop where
  ends : ∀ a ts, ts ≠ [] → EndsAt stop more last R (F a) (G a) ts
  stops : ∀ ⦃a r ts'⦄, (F a).run stop = .ok (r, ts') → r = h a ∧ ts' = stop ∧ ∀ a', (G a').run last = .ok (h a', last)

/-- A reading that fails behind the last token. -/
def Refuses (stop : List Lexeme) (x : Reading α) : Prop := ∀ r, x.run stop ≠ .ok r

/-! ### Single tokens -/

theorem isFailure_of_run_peek {l : Lexeme} {ts : List Lexeme} {r : Lexeme × List Lexeme}
    (h : peek.run (l :: ts) = .ok r) : l.token.isFailure = false := by
  obtain ⟨token, line⟩ := l
  cases token with
  | failure => cases h
  | _ => rfl

namespace Exchange

/-- Where a reader looks at what comes behind the last token, it sees the end of the tag. -/
theorem exists_stop (h : Exchange g stop more last) {r : Lexeme × List Lexeme} (hpeek : peek.run stop = .ok r) :
    ∃ kind line rest, stop = ⟨.stop kind, line⟩ :: rest ∧ r = (⟨.stop kind, line⟩, stop) := by
  cases stop with
  | nil => cases hpeek
  | cons l rest =>
    have hfailure := isFailure_of_run_peek hpeek
    obtain ⟨token, line⟩ := l
    rcases h.barred _ rfl with ⟨kind, hkind⟩ | ⟨kind, hkind⟩
    · obtain rfl : token = .stop kind := hkind
      exact ⟨kind, line, rest, rfl, (Except.ok.inj hpeek).symm⟩
    · obtain rfl : token = .failure kind := hkind
      cases hfailure

end Exchange

/-- A kind of tokens with none among them that end a tag. -/
def Within (wanted : Token → Bool) : Prop := ∀ kind, wanted (.stop kind) = false

theorem within_mark (m : Mark) : Within (Token.isMark m) := fun _ => rfl

/-- A kind of tokens with none among them that stand behind an expression. -/
def Inner (wanted : Token → Bool) : Prop := ∀ t, t.isInert = true → wanted t = false

theorem Inner.within {wanted : Token → Bool} (h : Inner wanted) : Within wanted := fun kind => h (.stop kind) rfl

theorem inner_mark {m : Mark} (h : (Token.mark m).isInert = false) : Inner (Token.isMark m) := by
  intro t ht
  cases t with
  | mark m' =>
    refine beq_eq_false_iff_ne.2 ?_
    rintro rfl
    rw [h] at ht
    cases ht
  | _ => rfl

theorem inner_name (s : String) : Inner (Token.isName s) := by
  intro t ht
  cases t with
  | name => cases ht
  | _ => rfl

theorem isFailure_of_isInert {t : Token} (h : t.isInert = true) : t.isFailure = false := by
  cases t with
  | failure => cases h
  | _ => rfl

section
variable {wanted : Token → Bool}

theorem run_accept_cons {l : Lexeme} (h : l.token.isFailure = false) (wanted : Token → Bool) (ts : List Lexeme) :
    (accept wanted).run (l :: ts) = .ok (wanted l.token, if wanted l.token then ts else l :: ts) := by
  cases hl : wanted l.token with
  | true => exact run_accept h hl ts
  | false => exact run_accept_of_not h hl ts

theorem isFailure_of_run_accept {l : Lexeme} {ts : List Lexeme} {r : Bool × List Lexeme}
    (h : (accept wanted).run (l :: ts) = .ok r) : l.token.isFailure = false := by
  obtain ⟨l', mid, hpeek, -⟩ := eq_of_run_bind h
  exact isFailure_of_run_peek hpeek

theorem Exchange.run_accept_stop (h : Exchange g stop more last) (hw : Within wanted) {b : Bool}
    {ts' : List Lexeme} (hrun : (accept wanted).run stop = .ok (b, ts')) : b = false ∧ ts' = stop := by
  obtain ⟨l, mid, hpeek, -⟩ := eq_of_run_bind hrun
  obtain ⟨kind, line, rest, rfl, -⟩ := h.exists_stop hpeek
  rw [run_accept_cons rfl, hw kind] at hrun
  obtain ⟨rfl, rfl⟩ := Prod.mk.inj (Except.ok.inj hrun)
  exact ⟨rfl, rfl⟩

theorem Exchange.run_accept_more (h : Exchange g stop more last) (hw : Inner wanted) :
    (accept wanted).run more = .ok (false, more) := by
  obtain ⟨l, rest, rfl, hl⟩ := h.inert
  exact run_accept_of_not (isFailure_of_isInert hl) (hw _ hl) rest

end

/-! ### Composition -/

/-- The end of a tag is not taken where nothing goes on with it. -/
theorem Refuses.take_bind (hx : Exchange g stop more last) {F : Lexeme → Reading α}
    (h : ∀ kind line, F ⟨.stop kind, line⟩ = malformed) : Refuses stop (take >>= F) := by
  intro r hrun
  obtain ⟨l, mid, htake, hmore⟩ := eq_of_run_bind hrun
  obtain ⟨l', mid', hpeek, -⟩ := eq_of_run_bind htake
  obtain ⟨kind, line, rest, rfl, -⟩ := hx.exists_stop hpeek
  obtain ⟨rfl, rfl⟩ := List.cons.inj (eq_of_run_take htake)
  rw [h kind line] at hmore
  cases hmore

namespace Keeps

variable {x y : Reading α} {wanted : Token → Bool} {ts : List Lexeme}

theorem pure (a : α) : Keeps stop more (pure a : Reading α) (pure a) := by
  intro ts b ts' h
  obtain ⟨rfl, rfl⟩ := Prod.mk.inj (Except.ok.inj h)
  exact ⟨ts, List.suffix_refl ts, rfl, rfl⟩

theorem malformed (y : Reading α) : Keeps stop more malformed y := fun _ _ _ h => nomatch h

theorem bindAt {F G : α → Reading β} (h : KeepsAt stop more x y ts)
    (hF : ∀ a us, us <:+ ts → KeepsAt stop more (F a) (G a) us) : KeepsAt stop more (x >>= F) (y >>= G) ts := by
  intro b ts' hrun
  obtain ⟨a, mid, hx, hmore⟩ := eq_of_run_bind hrun
  obtain ⟨us, hus, rfl, hy⟩ := h hx
  obtain ⟨vs, hvs, rfl, hG⟩ := hF a us hus hmore
  exact ⟨vs, hvs.trans hus, rfl, (run_bind_ok hy G).trans hG⟩

theorem bind {F G : α → Reading β} (h : Keeps stop more x y) (hF : ∀ a, Keeps stop more (F a) (G a)) :
    Keeps stop more (x >>= F) (y >>= G) := fun ts => bindAt (h ts) fun a us _ => hF a us

theorem map (h : Keeps stop more x y) (f : α → β) : Keeps stop more (f <$> x) (f <$> y) := by
  rw [map_eq_pure_bind, map_eq_pure_bind]
  exact h.bind fun a => .pure (f a)

theorem ite {c : Prop} [Decidable c] {x' y' : Reading α} (h : Keeps stop more x y) (h' : Keeps stop more x' y') :
    Keeps stop more (if c then x else x') (if c then y else y') := by
  split
  · exact h
  · exact h'

theorem accept_cons (wanted : Token → Bool) (l : Lexeme) (ts : List Lexeme) :
    KeepsAt stop more (Reading.accept wanted) (Reading.accept wanted) (l :: ts) := by
  intro b ts' h
  have hfailure := isFailure_of_run_accept h
  rw [List.cons_append, run_accept_cons hfailure] at h
  obtain ⟨rfl, rfl⟩ := Prod.mk.inj (Except.ok.inj h)
  rw [List.cons_append, run_accept_cons hfailure]
  split
  · exact ⟨ts, List.suffix_cons l ts, rfl, rfl⟩
  · exact ⟨l :: ts, List.suffix_refl _, rfl, rfl⟩

theorem accept (hx : Exchange g stop more last) (hw : Inner wanted) :
    Keeps stop more (accept wanted) (accept wanted) := by
  intro ts b ts' h
  cases ts with
  | nil =>
    obtain ⟨rfl, rfl⟩ := hx.run_accept_stop hw.within h
    exact ⟨[], List.suffix_refl _, rfl, hx.run_accept_more hw⟩
  | cons l ts => exact accept_cons wanted l ts h

theorem accept_ite (hx : Exchange g stop more last) (hw : Inner wanted) {x' y' : Reading α}
    (h : Keeps stop more x y) (h' : Keeps stop more x' y') :
    Keeps stop more (do if ← Reading.accept wanted then x else x') (do if ← Reading.accept wanted then y else y') :=
  (accept hx hw).bind fun _ => ite h h'

/-- A reading that goes on in the same way whatever was chosen. -/
theorem ite_bind {c : Prop} [Decidable c] {x' y' : Reading α} {F G : α → Reading β}
    (h : KeepsAt stop more (x >>= F) (y >>= G) ts) (h' : KeepsAt stop more (x' >>= F) (y' >>= G) ts) :
    KeepsAt stop more (if c then x >>= F else x' >>= F) (if c then y >>= G else y' >>= G) ts := by
  split
  · exact h
  · exact h'

/-- A choice by a token that may stand behind the last one, where there must be more otherwise. -/
theorem accept_closing (hx : Exchange g stop more last) (hw : Within wanted) {x' y' : Reading α}
    (h : Keeps stop more x y) (h' : Keeps stop more x' y') (hstop : Refuses stop x') :
    Keeps stop more (do if ← Reading.accept wanted then x else x') (do if ← Reading.accept wanted then y else y') := by
  intro ts
  cases ts with
  | nil =>
    intro a ts' hrun
    obtain ⟨b, mid, haccept, hmore⟩ := eq_of_run_bind hrun
    obtain ⟨rfl, rfl⟩ := hx.run_accept_stop hw haccept
    exact absurd hmore (hstop _)
  | cons l ts => exact bindAt (accept_cons wanted l ts) fun _ us _ => ite h h' us

theorem expect (hx : Exchange g stop more last) (hw : Within wanted) :
    Keeps stop more (expect wanted) (expect wanted) :=
  accept_closing hx hw (.pure ()) (.malformed _) fun _ h => nomatch h

/-- A token is taken, unless it is one that nothing goes on with. -/
theorem take_bind {F G : Lexeme → Reading α} (hstop : Refuses stop (take >>= F))
    (hF : ∀ l, Keeps stop more (F l) (G l)) : Keeps stop more (take >>= F) (take >>= G) := by
  intro ts a ts' h
  cases ts with
  | nil => exact absurd h (hstop _)
  | cons l ts =>
    obtain ⟨l', mid, htake, hmore⟩ := eq_of_run_bind h
    obtain ⟨rfl, rfl⟩ := List.cons.inj (eq_of_run_take htake)
    obtain ⟨l', mid, hpeek, -⟩ := eq_of_run_bind htake
    obtain ⟨us, hus, rfl, hG⟩ := hF l ts hmore
    refine ⟨us, hus.trans (List.suffix_cons l ts), rfl, ?_⟩
    rw [List.cons_append, run_bind_ok (run_take (isFailure_of_run_peek hpeek) _), hG]

/-- Looking at the next token; behind the last one, the two readings see different ones. -/
theorem peek_bind (hx : Exchange g stop more last) {F G : Lexeme → Reading α}
    (hend : ∀ l l', l.token.isInert = true → l'.token.isInert = true → KeepsAt stop more (F l) (G l') [])
    (hF : ∀ l ts, KeepsAt stop more (F l) (G l) (l :: ts)) : Keeps stop more (peek >>= F) (peek >>= G) := by
  intro ts a ts' h
  cases ts with
  | nil =>
    obtain ⟨l, mid, hpeek, hmore⟩ := eq_of_run_bind h
    obtain ⟨kind, line, rest, -, hl⟩ := hx.exists_stop hpeek
    obtain ⟨rfl, rfl⟩ := Prod.mk.inj hl
    obtain ⟨l', rest', hmore', hl'⟩ := hx.inert
    obtain ⟨us, hus, rfl, hG⟩ := hend _ l' rfl hl' hmore
    refine ⟨us, hus, rfl, ?_⟩
    have hpeek' : peek.run more = .ok (l', more) := by
      rw [hmore', run_peek (isFailure_of_isInert hl')]
    exact (run_bind_ok hpeek' G).trans hG
  | cons l ts =>
    obtain ⟨l', mid, hpeek, hmore⟩ := eq_of_run_bind h
    have hfailure := isFailure_of_run_peek hpeek
    rw [List.cons_append, run_peek hfailure] at hpeek
    obtain ⟨rfl, rfl⟩ := Prod.mk.inj (Except.ok.inj hpeek)
    obtain ⟨us, hus, rfl, hG⟩ := hF _ ts hmore
    refine ⟨us, hus, rfl, ?_⟩
    rw [List.cons_append, run_bind_ok (run_peek hfailure _)]
    exact hG

theorem anyName (hx : Exchange g stop more last) : Keeps stop more anyName anyName := by
  refine take_bind (.take_bind hx fun kind line => rfl) fun l => ?_
  obtain ⟨token, line⟩ := l
  cases token with
  | name s => exact .pure s
  | _ => exact .malformed _

end Keeps

namespace Refuses

variable {x : Reading α} {wanted : Token → Bool}

theorem malformed : Refuses stop (malformed : Reading α) := fun _ h => nomatch h

theorem bind (h : Refuses stop x) (F : α → Reading β) : Refuses stop (x >>= F) := by
  intro r hrun
  obtain ⟨a, mid, hx, -⟩ := eq_of_run_bind hrun
  exact h _ hx

/-- What is wanted does not stand behind the last token. -/
theorem accept_bind (hx : Exchange g stop more last) (hw : Within wanted) {F : Bool → Reading α}
    (h : Refuses stop (F false)) : Refuses stop (accept wanted >>= F) := by
  intro r hrun
  obtain ⟨b, mid, haccept, hmore⟩ := eq_of_run_bind hrun
  obtain ⟨rfl, rfl⟩ := hx.run_accept_stop hw haccept
  exact h _ hmore

theorem expect (hx : Exchange g stop more last) (hw : Within wanted) : Refuses stop (expect wanted) :=
  accept_bind hx hw malformed

theorem ite {c : Prop} [Decidable c] {y : Reading α} (hx : Refuses stop x) (hy : Refuses stop y) :
    Refuses stop (if c then x else y) := by
  split
  · exact hx
  · exact hy

end Refuses

namespace EndsAt

variable {R : List Lexeme → α → α → Prop} {x y : Reading α} {ts : List Lexeme}

theorem malformed (y : Reading α) : EndsAt stop more last R malformed y ts := fun _ _ h => nomatch h

/-- What must go on behind a reading does so before the end of the tokens. -/
theorem bind_keeps {F G : α → Reading β} (h : EndsAt stop more last R x y ts) (hstop : ∀ a, Refuses stop (F a))
    (hF : ∀ a, Keeps stop more (F a) (G a)) : KeepsAt stop more (x >>= F) (y >>= G) ts := by
  intro b ts' hrun
  obtain ⟨a, mid, hx, hmore⟩ := eq_of_run_bind hrun
  rcases h hx with ⟨us, -, hus, rfl, hy⟩ | ⟨rfl, -⟩
  · obtain ⟨vs, hvs, rfl, hG⟩ := hF a us hmore
    exact ⟨vs, hvs.trans hus, rfl, (run_bind_ok hy G).trans hG⟩
  · exact absurd hmore (hstop a _)

/-- A reading that leaves off before the end, in front of one that may come to it. -/
theorem of_keeps {z w : Reading β} {F G : β → Reading α} (h : KeepsAt stop more z w ts)
    (hF : ∀ b us, us <:+ ts → EndsAt stop more last R (F b) (G b) us) : EndsAt stop more last R (z >>= F) (w >>= G) ts := by
  intro a ts' hrun
  obtain ⟨b, mid, hz, hmore⟩ := eq_of_run_bind hrun
  obtain ⟨us, hus, rfl, hw⟩ := h hz
  rcases hF b us hus hmore with ⟨vs, hne, hvs, rfl, hG⟩ | ⟨rfl, a', vs, hvs, hR, hG⟩
  · exact .inl ⟨vs, hne, hvs.trans hus, rfl, (run_bind_ok hw G).trans hG⟩
  · exact .inr ⟨rfl, a', vs, hvs.trans hus, hR, (run_bind_ok hw G).trans hG⟩

/-- What may come to the end, in front of what goes on if it did not. -/
theorem bind {R' : List Lexeme → β → β → Prop} {F G : α → Reading β} {k : α → β} (h : EndsAt stop more last R x y ts)
    (hF : GoesOn stop more last R' F G k) (hR : ∀ us a a', R us a a' → R' us (k a) (k a')) :
    EndsAt stop more last R' (x >>= F) (y >>= G) ts := by
  intro b ts' hrun
  obtain ⟨a, mid, hx, hmore⟩ := eq_of_run_bind hrun
  rcases h hx with ⟨us, hne, hus, rfl, hy⟩ | ⟨rfl, a', us, hus, hrel, hy⟩
  · rcases hF.ends a us hne hmore with ⟨vs, hne', hvs, rfl, hG⟩ | ⟨rfl, b', vs, hvs, hrel, hG⟩
    · exact .inl ⟨vs, hne', hvs.trans hus, rfl, (run_bind_ok hy G).trans hG⟩
    · exact .inr ⟨rfl, b', vs, hvs.trans hus, hrel, (run_bind_ok hy G).trans hG⟩
  · obtain ⟨rfl, rfl, hG⟩ := hF.stops hmore
    exact .inr ⟨rfl, k a', us, hus, hR us a a' hrel, (run_bind_ok hy G).trans (hG a')⟩

theorem bind_pure {R' : List Lexeme → β → β → Prop} {k : α → β} (h : EndsAt stop more last R x y ts)
    (hR : ∀ us a a', R us a a' → R' us (k a) (k a')) :
    EndsAt stop more last R' (do return k (← x)) (do return k (← y)) ts := by
  refine h.bind ⟨fun a us hne b ts' hrun => ?_, fun a r ts' hrun => ?_⟩ hR
  · obtain ⟨rfl, rfl⟩ := Prod.mk.inj (Except.ok.inj hrun)
    exact .inl ⟨us, hne, List.suffix_refl us, rfl, rfl⟩
  · obtain ⟨rfl, rfl⟩ := Prod.mk.inj (Except.ok.inj hrun)
    exact ⟨rfl, rfl, fun _ => rfl⟩

theorem map {R' : List Lexeme → β → β → Prop} (h : EndsAt stop more last R x y ts) (k : α → β)
    (hR : ∀ us a a', R us a a' → R' us (k a) (k a')) : EndsAt stop more last R' (k <$> x) (k <$> y) ts := by
  rw [map_eq_pure_bind, map_eq_pure_bind]
  exact h.bind_pure hR

/-- A token that has been taken. -/
theorem take_bind {F G : Lexeme → Reading α} {l : Lexeme} (h : EndsAt stop more last R (F l) (G l) ts) :
    EndsAt stop more last R (take >>= F) (take >>= G) (l :: ts) := by
  intro a ts' hrun
  obtain ⟨l', mid, htake, hmore⟩ := eq_of_run_bind hrun
  obtain ⟨rfl, rfl⟩ := List.cons.inj (eq_of_run_take htake)
  obtain ⟨l', mid, hpeek, -⟩ := eq_of_run_bind htake
  have hy : (take >>= G).run (l :: (ts ++ more)) = (G l).run (ts ++ more) :=
    run_bind_ok (run_take (isFailure_of_run_peek hpeek) _) G
  rcases h hmore with ⟨us, hne, hus, rfl, hG⟩ | ⟨rfl, a', us, hus, hR, hG⟩
  · exact .inl ⟨us, hne, hus.trans (List.suffix_cons l ts), rfl, hy.trans hG⟩
  · exact .inr ⟨rfl, a', us, hus.trans (List.suffix_cons l ts), hR, hy.trans hG⟩

/-- A token that is only looked at. -/
theorem peek_bind {F G : Lexeme → Reading α} {l : Lexeme} (h : EndsAt stop more last R (F l) (G l) (l :: ts)) :
    EndsAt stop more last R (peek >>= F) (peek >>= G) (l :: ts) := by
  intro a ts' hrun
  obtain ⟨l', mid, hpeek, hmore⟩ := eq_of_run_bind hrun
  have hfailure := isFailure_of_run_peek hpeek
  rw [List.cons_append, run_peek hfailure] at hpeek
  obtain ⟨rfl, rfl⟩ := Prod.mk.inj (Except.ok.inj hpeek)
  have hy : (peek >>= G).run (l :: ts ++ more) = (G l).run (l :: ts ++ more) := run_bind_ok (run_peek hfailure _) G
  rw [hy]
  exact h hmore

/-- A choice by a token. -/
theorem accept_cons {wanted : Token → Bool} {F G : Bool → Reading α} {l : Lexeme}
    (htrue : EndsAt stop more last R (F true) (G true) ts)
    (hfalse : EndsAt stop more last R (F false) (G false) (l :: ts)) :
    EndsAt stop more last R (accept wanted >>= F) (accept wanted >>= G) (l :: ts) := by
  intro a ts' hrun
  obtain ⟨b, mid, haccept, hmore⟩ := eq_of_run_bind hrun
  have hfailure := isFailure_of_run_accept haccept
  have hy (us : List Lexeme) := run_accept_cons hfailure wanted us
  rw [List.cons_append, hy] at haccept
  obtain ⟨rfl, rfl⟩ := Prod.mk.inj (Except.ok.inj haccept)
  rw [List.cons_append, run_bind_ok (hy _)]
  cases hwanted : wanted l.token with
  | true =>
    rw [hwanted] at hmore
    rcases htrue hmore with ⟨us, hne, hus, rfl, hG⟩ | ⟨rfl, a', us, hus, hR, hG⟩
    · exact .inl ⟨us, hne, hus.trans (List.suffix_cons l ts), rfl, hG⟩
    · exact .inr ⟨rfl, a', us, hus.trans (List.suffix_cons l ts), hR, hG⟩
  | false =>
    rw [hwanted] at hmore
    exact hfalse hmore

/-- A choice by a token that neither a filter nor the end of a tag starts with. -/
theorem accept_ite (hx : Exchange g stop more last) {wanted : Token → Bool} (hw : Inner wanted) {x' y' : Reading α}
    (h : ∀ us, EndsAt stop more last R x y us) (h' : ∀ us, EndsAt stop more last R x' y' us) (ts : List Lexeme) :
    EndsAt stop more last R (do if ← accept wanted then x else x') (do if ← accept wanted then y else y') ts := by
  refine of_keeps (Keeps.accept hx hw ts) fun b us _ => ?_
  cases b
  · exact h' us
  · exact h us

/-- Nothing more is read in front of a token. -/
theorem pure_cons (a : α) (l : Lexeme) (ts : List Lexeme) :
    EndsAt stop more last R (pure a : Reading α) (pure a) (l :: ts) := by
  intro b ts' hrun
  obtain ⟨rfl, rfl⟩ := Prod.mk.inj (Except.ok.inj hrun)
  exact .inl ⟨l :: ts, List.cons_ne_nil l ts, List.suffix_refl _, rfl, rfl⟩

end EndsAt

namespace GoesOn

variable {R : List Lexeme → β → β → Prop} {F G : β → Reading β}

/-- What is read before can be put into something larger first. -/
theorem comp (h : GoesOn stop more last R F G id) (k : α → β) :
    GoesOn stop more last R (fun a => F (k a)) (fun a => G (k a)) k where
  ends a := h.ends (k a)
  stops a r ts' hrun := by
    obtain ⟨rfl, rfl, hG⟩ := h.stops hrun
    exact ⟨rfl, rfl, fun a' => hG (k a')⟩

end GoesOn

end

end ViewBridge.Template
