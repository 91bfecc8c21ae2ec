import ViewBridge.Proofs.Counting.Scanning
import ViewBridge.Proofs.Loop.Reading
import ViewBridge.Proofs.Phrase.FirstOperand
/-!
# Arithmetic as the engine reads it

The engine reads an arithmetic expression as its tiers say, whatever stands behind it that binds looser: signs with
their operand, and the operators of a tier from the left.

Results:
* `isRead_lexemes`: an expression is read by its tiers.
* `run_readExpr_lexemes`: as an argument of a call it is read to its end.
-/
namespace ViewBridge

open Template Template.Reading
open Translator (IsIdentifier)

/-! ## Expressions -/

theorem Leaf.length_lexemes_le (x : Leaf) (line : Nat) : (x.lexemes line).length ≤ x.target.length := by
  have hpath (path : List (Link × { s : Chars // IsIdentifier s })) :
      (Leaf.pathLexemes line path).length ≤ (path.flatMap fun m => '.' :: m.2.1).length := by
    induction path with
    | nil => exact Nat.le_refl 0
    | cons m path ih =>
      have hname : 0 < m.2.1.length := List.length_pos_iff.2 m.2.2.ne_nil
      rw [Leaf.pathLexemes] at ih ⊢
      simp only [List.flatMap_cons, List.length_append, List.length_cons, List.length_nil]
      omega
  have hhead : 0 < x.head.1.length := List.length_pos_iff.2 x.head.2.1.1.ne_nil
  have htail := hpath x.path
  rw [Leaf.lexemes, Leaf.target, List.length_cons, List.length_append]
  omega

/-- The operator of a sum. -/
def Sign.operator : Sign → Operator
  | plus => .add
  | minus => .sub

namespace Arithmetic

variable {t : Tier}

/-- What an expression is read as, if it starts on a line. -/
def expr (line : Nat) : {t : Tier} → Arithmetic t → Expr
  | _, number n => .const line (.int n.value)
  | _, name x => .var line x.1
  | _, negative gap e => .neg (e.expr (line + lineBreaks gap.1))
  | _, group before e _ => e.expr (line + lineBreaks before.1)
  | _, member x => x.path.foldl (fun e m => .member e m.2.1) (.var line x.head.1)
  | _, product a before behind b =>
    .binary .mul (a.expr line) (b.expr (line + lineBreaks a.target + lineBreaks before.1 + lineBreaks behind.1))
  | _, sum op a before behind b =>
    .binary op.operator (a.expr line)
      (b.expr (line + lineBreaks a.target + lineBreaks before.1 + lineBreaks behind.1))
  | _, ofSigned e => e.expr line
  | _, ofOperand e => e.expr line
  | _, ofProduct e => e.expr line

/-- How many levels of nesting the engine reads an expression on. -/
def levels : {t : Tier} → Arithmetic t → Nat
  | _, number _ | _, name _ | _, member _ => 1
  | _, group _ e _ => e.levels + 2
  | _, negative _ e | _, ofSigned e | _, ofOperand e | _, ofProduct e => e.levels
  | _, product a _ _ b | _, sum _ a _ _ b => max a.levels b.levels

/-- No token is without characters. -/
theorem length_lexemes_le (e : Arithmetic t) (line : Nat) : (e.lexemes line).length ≤ e.target.length := by
  induction e generalizing line with
  | number n => exact List.length_pos_iff.2 n.2.1
  | name x => exact Leaf.length_lexemes_le ⟨x, []⟩ line
  | member x => exact x.length_lexemes_le line
  | negative gap e ih =>
    have hinner := ih (line + lineBreaks gap.1)
    simp only [target, written, lexemes, List.length_cons, List.length_append] at hinner ⊢
    omega
  | group before e behind ih =>
    have hinner := ih (line + lineBreaks before.1)
    simp only [target, written, lexemes, List.length_cons, List.length_append, List.length_nil] at hinner ⊢
    omega
  | product a before behind b iha ihb | sum op a before behind b iha ihb =>
    have hleft := iha line
    have hright := ihb (line + lineBreaks a.target + lineBreaks before.1 + lineBreaks behind.1)
    simp only [target, written, lexemes, List.length_cons, List.length_append] at hleft hright ⊢
    omega
  | ofSigned e ih | ofOperand e ih | ofProduct e ih => exact ih line

end Arithmetic

/-! ## Reading -/

/-- The marks that an expression of a tier can stand in front of. -/
def Tier.followers : Tier → List Mark
  | .signed | .operand => [.times, .plus, .minus, .comma, .closeParen]
  | .product => [.plus, .minus, .comma, .closeParen]
  | .sum => [.comma, .closeParen]

section
variable {fuel levels line : Nat} {l : Level} {m : Mark} {op : Operator} {a x : Expr} {ts rest : List Lexeme}

theorem run_readJoined_none (h : l.operator? m = none) :
    (readJoined (fuel + 1) levels l a).run (⟨.mark m, line⟩ :: rest) = .ok (a, ⟨.mark m, line⟩ :: rest) := by
  have hjoin : l.join? (.mark m) = none := by rw [Level.join?, h]; rfl
  rw [readJoined, run_bind_ok (run_peek rfl _)]
  simp only [hjoin]
  rfl

theorem run_readJoined_some (h : l.operator? m = some op) :
    (readJoined (fuel + 1) levels l a).run (⟨.mark m, line⟩ :: ts) = (do
      let b ← readLevel fuel levels l.tighter
      readJoined fuel levels l (.binary op a b) : Reading Expr).run ts := by
  have hjoin : l.join? (.mark m) = some (.binary op) := by rw [Level.join?, h]; rfl
  rw [readJoined, run_bind_ok (run_peek rfl _)]
  simp only [hjoin]
  rw [run_bind_ok (run_take rfl _)]

/-- What is read on the next level is read on this one, in front of what is no operator here. -/
theorem run_readLevel_through (hpos : 0 < l.rank) (hle : l.rank ≤ 4) (hm : l.operator? m = none)
    (h : (readLevel (fuel + 1) levels l.tighter).run ts = .ok (x, ⟨.mark m, line⟩ :: rest)) :
    (readLevel (fuel + 2) levels l).run ts = .ok (x, ⟨.mark m, line⟩ :: rest) := by
  rw [Level.readLevel_eq hpos hle, run_bind_ok h, run_readJoined_none hm]

end

/-- Tokens are read as an expression of a tier, with fuel enough: signs and operands to their end, and sums and
products up to where more operators may follow. -/
def IsRead (t : Tier) (need levels : Nat) (ls : List Lexeme) (x : Expr) : Prop :=
  match t with
  | .signed => ∀ fuel rest, need ≤ fuel → (readSigned fuel levels).run (ls ++ rest) = .ok (x, rest)
  | .operand => ∀ fuel m line rest, need ≤ fuel → m ∈ Tier.followers .operand →
    (readLevel fuel levels .operand).run (ls ++ ⟨.mark m, line⟩ :: rest) = .ok (x, ⟨.mark m, line⟩ :: rest)
  | .product => ∀ fuel m line rest, need ≤ fuel → m ∈ Tier.followers .operand →
    ∃ left, fuel ≤ left + ls.length + 1 ∧ (readLevel fuel levels .product).run (ls ++ ⟨.mark m, line⟩ :: rest) =
      (readJoined left levels .product x).run (⟨.mark m, line⟩ :: rest)
  | .sum => ∀ fuel m line rest, need ≤ fuel → m ∈ Tier.followers .product →
    ∃ left, fuel ≤ left + ls.length + 1 ∧ (readLevel fuel levels .sum).run (ls ++ ⟨.mark m, line⟩ :: rest) =
      (readJoined left levels .sum x).run (⟨.mark m, line⟩ :: rest)

/-- The fuel that a tier needs besides that for its tokens. -/
def Tier.need : Tier → Nat
  | .signed => 0
  | .operand => 2
  | .product => 5
  | .sum => 9

section
variable {fuel levels line need : Nat} {m : Mark} {x y : Expr} {ls ls' ts rest : List Lexeme}

theorem operator?_of_operand (hm : m ∈ Tier.followers .operand) : Level.power.operator? m = none := by
  revert m
  decide

theorem operator?_of_product (hm : m ∈ Tier.followers .product) :
    Level.product.operator? m = none ∧ Level.joined.operator? m = none := by
  revert m
  decide

theorem operator?_of_sum (hm : m ∈ Tier.followers .sum) : Level.sum.operator? m = none := by
  revert m
  decide

theorem comparison?_of_sum (hm : m ∈ Tier.followers .sum) : comparison? (.mark m) = none := by
  simp only [Tier.followers, List.mem_cons, List.not_mem_nil, or_false] at hm
  rcases hm with rfl | rfl <;> rfl

theorem followers_subset : Tier.followers .product ⊆ Tier.followers .operand ∧
    Tier.followers .sum ⊆ Tier.followers .product := by decide

namespace IsRead

theorem ofSigned (h : IsRead .signed need levels ls x) : IsRead .operand (need + 2) levels ls x := by
  intro fuel m line rest hfuel hm
  obtain ⟨fuel, rfl⟩ : ∃ n, fuel = n + 1 + 1 := ⟨fuel - 2, by omega⟩
  have hmark : ∀ m ∈ Tier.followers .operand, (Token.mark m).isMark .dot = false ∧
      (Token.mark m).isMark .openBracket = false ∧ (Token.mark m).isMark .openParen = false ∧
        (Token.mark m).isMark .bar = false := by decide
  obtain ⟨hdot, hbracket, hparen, hbar⟩ := hmark m hm
  rw [readLevel, run_bind_ok (h _ _ (by omega)), run_bind_ok (run_readPostfix rfl hdot hbracket hparen fuel x rest),
    readFilters, run_bind_ok (run_accept_of_not rfl hbar rest), if_neg (by simp),
    run_bind_ok (run_accept_of_not rfl rfl rest)]
  rfl

theorem power (h : IsRead .operand need levels ls x) (hm : m ∈ Tier.followers .operand) (hfuel : need + 2 ≤ fuel) :
    (readLevel fuel levels .power).run (ls ++ ⟨.mark m, line⟩ :: rest) = .ok (x, ⟨.mark m, line⟩ :: rest) := by
  obtain ⟨fuel, rfl⟩ : ∃ n, fuel = n + 2 := ⟨fuel - 2, by omega⟩
  exact run_readLevel_through (by decide) (by decide) (operator?_of_operand hm) (h _ _ _ _ (by omega) hm)

theorem ofOperand (h : IsRead .operand need levels ls x) : IsRead .product (need + 3) levels ls x := by
  intro fuel m line rest hfuel hm
  obtain ⟨fuel, rfl⟩ : ∃ n, fuel = n + 1 := ⟨fuel - 1, by omega⟩
  refine ⟨fuel, by omega, ?_⟩
  have hpower : (readLevel fuel levels Level.product.tighter).run (ls ++ ⟨.mark m, line⟩ :: rest) = _ :=
    h.power hm (by omega)
  rw [Level.readLevel_eq (by decide) (by decide), run_bind_ok hpower]

theorem joined (h : IsRead .product need levels ls x) (hneed : ls.length ≤ need) (hm : m ∈ Tier.followers .product)
    (hfuel : need + 3 ≤ fuel) :
    (readLevel fuel levels .joined).run (ls ++ ⟨.mark m, line⟩ :: rest) = .ok (x, ⟨.mark m, line⟩ :: rest) := by
  obtain ⟨fuel, rfl⟩ : ∃ n, fuel = n + 2 := ⟨fuel - 2, by omega⟩
  obtain ⟨left, hleft, hrun⟩ := h (fuel + 1) m line rest (by omega) (followers_subset.1 hm)
  obtain ⟨left, rfl⟩ : ∃ n, left = n + 1 := ⟨left - 1, by omega⟩
  obtain ⟨hproduct, hjoined⟩ := operator?_of_product hm
  rw [run_readJoined_none hproduct] at hrun
  exact run_readLevel_through (by decide) (by decide) hjoined hrun

theorem ofProduct (h : IsRead .product need levels ls x) (hneed : ls.length ≤ need) :
    IsRead .sum (need + 4) levels ls x := by
  intro fuel m line rest hfuel hm
  obtain ⟨fuel, rfl⟩ : ∃ n, fuel = n + 1 := ⟨fuel - 1, by omega⟩
  refine ⟨fuel, by omega, ?_⟩
  have hjoined : (readLevel fuel levels Level.sum.tighter).run (ls ++ ⟨.mark m, line⟩ :: rest) = _ :=
    h.joined hneed hm (by omega)
  rw [Level.readLevel_eq (by decide) (by decide), run_bind_ok hjoined]

/-- One more factor. -/
theorem product {need' : Nat} (ha : IsRead .product need levels ls x) (hb : IsRead .operand need' levels ls' y)
    (line : Nat) : IsRead .product (max need (need' + ls.length + 4)) levels (ls ++ ⟨.mark .times, line⟩ :: ls')
      (.binary .mul x y) := by
  intro fuel m line' rest hfuel hm
  obtain ⟨left, hleft, hrun⟩ := ha fuel .times line (ls' ++ ⟨.mark m, line'⟩ :: rest) (by omega) (by decide)
  obtain ⟨left, rfl⟩ : ∃ n, left = n + 1 := ⟨left - 1, by omega⟩
  refine ⟨left, by simp only [List.length_append, List.length_cons]; omega, ?_⟩
  have hshape : ls ++ ⟨.mark .times, line⟩ :: ls' ++ ⟨.mark m, line'⟩ :: rest =
      ls ++ ⟨.mark .times, line⟩ :: (ls' ++ ⟨.mark m, line'⟩ :: rest) := by
    simp only [List.append_assoc, List.cons_append]
  have hpower : (readLevel left levels Level.product.tighter).run (ls' ++ ⟨.mark m, line'⟩ :: rest) = _ :=
    hb.power hm (by omega)
  have hoperator : Level.product.operator? .times = some .mul := rfl
  rw [hshape, hrun, run_readJoined_some hoperator, run_bind_ok hpower]

/-- One more summand. -/
theorem sum {need' : Nat} (ha : IsRead .sum need levels ls x) (hb : IsRead .product need' levels ls' y)
    (hneed : ls'.length ≤ need') (op : Sign) (line : Nat) :
    IsRead .sum (max need (need' + ls.length + 5)) levels (ls ++ ⟨.mark op.token, line⟩ :: ls')
      (.binary op.operator x y) := by
  intro fuel m line' rest hfuel hm
  have hop : op.token ∈ Tier.followers .product := by cases op <;> decide
  have hoperator : Level.sum.operator? op.token = some op.operator := by cases op <;> rfl
  obtain ⟨left, hleft, hrun⟩ := ha fuel op.token line (ls' ++ ⟨.mark m, line'⟩ :: rest) (by omega) hop
  obtain ⟨left, rfl⟩ : ∃ n, left = n + 1 := ⟨left - 1, by omega⟩
  refine ⟨left, by simp only [List.length_append, List.length_cons]; omega, ?_⟩
  have hshape : ls ++ ⟨.mark op.token, line⟩ :: ls' ++ ⟨.mark m, line'⟩ :: rest =
      ls ++ ⟨.mark op.token, line⟩ :: (ls' ++ ⟨.mark m, line'⟩ :: rest) := by
    simp only [List.append_assoc, List.cons_append]
  have hjoined : (readLevel left levels Level.sum.tighter).run (ls' ++ ⟨.mark m, line'⟩ :: rest) = _ :=
    hb.joined hneed hm (by omega)
  rw [hshape, hrun, run_readJoined_some hoperator, run_bind_ok hjoined]

theorem mono {t : Tier} {need' : Nat} (h : IsRead t need levels ls x) (hneed : need ≤ need') :
    IsRead t need' levels ls x := by
  cases t with
  | signed => exact fun fuel rest hfuel => h fuel rest (by omega)
  | operand => exact fun fuel m line rest hfuel => h fuel m line rest (by omega)
  | product => exact fun fuel m line rest hfuel => h fuel m line rest (by omega)
  | sum => exact fun fuel m line rest hfuel => h fuel m line rest (by omega)

theorem negative (h : IsRead .signed need levels ls x) (line : Nat) :
    IsRead .signed (need + 1) levels (⟨.mark .minus, line⟩ :: ls) (.neg x) := by
  intro fuel rest hfuel
  obtain ⟨fuel, rfl⟩ : ∃ n, fuel = n + 1 := ⟨fuel - 1, by omega⟩
  rw [List.cons_append, readSigned, run_bind_ok (run_accept rfl rfl _), if_pos rfl]
  exact run_map_ok (h _ _ (by omega)) _

/-- A sum up to its end, as an expression. -/
theorem readExpr {t : Lexeme} (h : IsRead .sum need levels (t :: ls) x) (hneed : ls.length < need)
    (ht : t.token.isFailure = false) (hnot : t.token.isName "not" = false) (hm : m ∈ Tier.followers .sum)
    (hfuel : need + 8 ≤ fuel) (line : Nat) (rest : List Lexeme) :
    (readExpr fuel (levels + 1)).run (t :: ls ++ ⟨.mark m, line⟩ :: rest) = .ok (x, ⟨.mark m, line⟩ :: rest) := by
  obtain ⟨fuel, rfl⟩ : ∃ n, fuel = n + 1 + 1 + 1 + 1 + 1 + 1 := ⟨fuel - 6, by omega⟩
  have hword (l : Level) (hl : l = .both ∨ l = .either) : l.operator? m = none := by
    rcases hl with rfl | rfl <;> cases m <;> rfl
  have hsum : (readLevel fuel levels .sum).run (t :: ls ++ ⟨.mark m, line⟩ :: rest) =
      .ok (x, ⟨.mark m, line⟩ :: rest) := by
    obtain ⟨left, hleft, hrun⟩ := h fuel m line rest (by omega) (followers_subset.2 hm)
    obtain ⟨left, rfl⟩ : ∃ n, left = n + 1 := ⟨left - 1, by simp only [List.length_cons] at hleft; omega⟩
    rw [hrun, run_readJoined_none (operator?_of_sum hm)]
  have hlinks : (readLinks fuel levels).run (⟨.mark m, line⟩ :: rest) = .ok ([], ⟨.mark m, line⟩ :: rest) := by
    obtain ⟨fuel, rfl⟩ : ∃ n, fuel = n + 1 := ⟨fuel - 1, by omega⟩
    rw [readLinks, run_bind_ok (run_peek rfl rest)]
    simp only [comparison?_of_sum hm]
    rfl
  have hcomparison : (readLevel (fuel + 1) levels .comparison).run (t :: ls ++ ⟨.mark m, line⟩ :: rest) =
      .ok (x, ⟨.mark m, line⟩ :: rest) := by
    rw [readLevel, run_bind_ok hsum, run_bind_ok hlinks]
    rfl
  have hnegation : (readLevel (fuel + 1 + 1) levels .negation).run (t :: ls ++ ⟨.mark m, line⟩ :: rest) =
      .ok (x, ⟨.mark m, line⟩ :: rest) := by
    rw [readLevel, List.cons_append, run_bind_ok (run_accept_of_not ht hnot _), if_neg (by simp)]
    exact hcomparison
  have hboth : (readLevel (fuel + 1 + 1 + 1) levels .both).run (t :: ls ++ ⟨.mark m, line⟩ :: rest) =
      .ok (x, ⟨.mark m, line⟩ :: rest) := by
    rw [readLevel, Level.tighter, run_bind_ok hnegation, run_readJoined_none (hword _ (.inl rfl))]
    all_goals
      intro h
      cases h
  have heither : (readLevel (fuel + 1 + 1 + 1 + 1) levels .either).run (t :: ls ++ ⟨.mark m, line⟩ :: rest) =
      .ok (x, ⟨.mark m, line⟩ :: rest) := by
    rw [readLevel, Level.tighter, run_bind_ok hboth, run_readJoined_none (hword _ (.inr rfl))]
    all_goals
      intro h
      cases h
  rw [Template.readExpr, readChoice, run_bind_ok heither, readConditions, run_bind_ok (run_accept_of_not rfl rfl rest)]
  rfl

/-- What is an expression up to the end of parentheses. -/
theorem parentheses {t : Lexeme} (ht : t.token.isFailure = false)
    (hclose : t.token.isMark .closeParen = false) {line' : Nat}
    (h : ∀ fuel rest, need ≤ fuel → (Template.readExpr fuel levels).run (t :: ls ++ ⟨.mark .closeParen, line'⟩ :: rest) =
      .ok (x, ⟨.mark .closeParen, line'⟩ :: rest)) (line : Nat) :
    IsRead .signed (need + 2) (levels + 1) (⟨.mark .openParen, line⟩ :: (t :: ls ++ [⟨.mark .closeParen, line'⟩])) x := by
  intro fuel rest hfuel
  obtain ⟨fuel, rfl⟩ : ∃ n, fuel = n + 2 := ⟨fuel - 2, by omega⟩
  have hshape : ⟨.mark .openParen, line⟩ :: (t :: ls ++ [⟨.mark .closeParen, line'⟩]) ++ rest =
      ⟨.mark .openParen, line⟩ :: t :: (ls ++ ⟨.mark .closeParen, line'⟩ :: rest) := by
    simp only [List.append_assoc, List.cons_append, List.nil_append]
  have hexpr := h fuel rest (by omega)
  rw [List.cons_append] at hexpr
  rw [hshape, run_readSigned_parentheses ht hclose, run_bind_ok hexpr, run_bind_ok (run_accept_of_not rfl rfl _),
    if_neg (by simp), run_bind_ok (run_expect rfl rfl _)]
  rfl

/-- A sum in parentheses. -/
theorem group {t : Lexeme} (h : IsRead .sum need levels (t :: ls) x) (hneed : ls.length < need)
    (ht : t.token.isFailure = false) (hnot : t.token.isName "not" = false)
    (hclose : t.token.isMark .closeParen = false) (line line' : Nat) :
    IsRead .signed (need + 10) (levels + 2)
      (⟨.mark .openParen, line⟩ :: (t :: ls ++ [⟨.mark .closeParen, line'⟩])) x :=
  .parentheses ht hclose (fun _ rest hfuel => h.readExpr hneed ht hnot (by decide) hfuel line' rest) line

end IsRead

end

/-! ## Arithmetic -/

namespace Leaf

/-- The members of a leaf. -/
theorem run_readPostfix_path {m : Mark} (hm : m ∈ Tier.followers .operand)
    (path : List (Link × { s : Chars // IsIdentifier s })) (fuel levels line line' : Nat) (e : Expr)
    (rest : List Lexeme) :
    (readPostfix (fuel + 1 + path.length) levels e).run (pathLexemes line path ++ ⟨.mark m, line'⟩ :: rest) =
      .ok (path.foldl (fun e m => .member e m.2.1) e, ⟨.mark m, line'⟩ :: rest) := by
  induction path generalizing e with
  | nil =>
    have hmark : ∀ m ∈ Tier.followers .operand, (Token.mark m).isMark .dot = false ∧
        (Token.mark m).isMark .openBracket = false ∧ (Token.mark m).isMark .openParen = false := by decide
    obtain ⟨hdot, hbracket, hparen⟩ := hmark m hm
    exact run_readPostfix rfl hdot hbracket hparen fuel e rest
  | cons x path ih =>
    have htokens : pathLexemes line (x :: path) ++ ⟨.mark m, line'⟩ :: rest =
        ⟨.mark .dot, line⟩ :: ⟨.name x.2.1, line⟩ :: (pathLexemes line path ++ ⟨.mark m, line'⟩ :: rest) := rfl
    rw [htokens, List.length_cons, ← Nat.add_assoc, readPostfix, run_bind_ok (run_accept rfl rfl _), if_pos rfl,
      run_bind_ok (run_anyName _ line _)]
    exact ih (.member e x.2.1)

end Leaf

namespace Arithmetic

variable {t : Tier}

/-- An expression starts with a token that an expression can start with. -/
theorem exists_head_lexemes (e : Arithmetic t) (line : Nat) : ∃ l ls, e.lexemes line = l :: ls ∧
    l.token.isFailure = false ∧ l.token.isName "not" = false ∧ l.token.isMark .closeParen = false := by
  have hname (x : Leaf) : (Token.name x.head.1).isName "not" = false :=
    beq_eq_false_iff_ne.2 (x.head.2.1.2 "not" (by decide))
  induction e generalizing line with
  | number n => exact ⟨_, _, rfl, rfl, rfl, rfl⟩
  | name x => exact ⟨_, _, rfl, rfl, hname ⟨x, []⟩, rfl⟩
  | negative gap e => exact ⟨_, _, rfl, rfl, rfl, rfl⟩
  | group before e behind => exact ⟨_, _, rfl, rfl, rfl, rfl⟩
  | member x => exact ⟨_, _, rfl, rfl, hname x, rfl⟩
  | product a before behind b iha | sum op a before behind b iha =>
    obtain ⟨l, ls, hlexemes, hl⟩ := iha line
    exact ⟨l, _, by rw [lexemes, hlexemes]; rfl, hl⟩
  | ofSigned e ih | ofOperand e ih | ofProduct e ih => exact ih line

/-- An expression is read by its tiers. -/
theorem isRead_lexemes (e : Arithmetic t) (levels : Nat) (h : e.levels ≤ levels) (line : Nat) :
    IsRead t (16 * (e.lexemes line).length + t.need) levels (e.lexemes line) (e.expr line) := by
  induction e generalizing levels line with
  | number n =>
    intro fuel rest hfuel
    rw [Arithmetic.levels] at h
    obtain ⟨levels, rfl⟩ : ∃ k, levels = k + 1 := ⟨levels - 1, by omega⟩
    rw [lexemes, List.length_singleton] at hfuel
    obtain ⟨fuel, rfl⟩ : ∃ k, fuel = k + 2 := ⟨fuel - 2, by omega⟩
    rw [lexemes, List.cons_append, readSigned, run_bind_ok (run_accept_of_not rfl rfl _), if_neg (by simp), readPrimary,
      run_bind_ok (run_take rfl _)]
    rfl
  | name x =>
    intro fuel rest hfuel
    rw [Arithmetic.levels] at h
    obtain ⟨levels, rfl⟩ : ∃ k, levels = k + 1 := ⟨levels - 1, by omega⟩
    have hlength : (Leaf.lexemes line ⟨x, []⟩).length = 1 := rfl
    rw [lexemes, hlength] at hfuel
    obtain ⟨fuel, rfl⟩ : ∃ k, fuel = k + 2 := ⟨fuel - 2, by omega⟩
    exact run_readSigned_name (LoopTemplate.namesVariable_of_ne x.2.1.2).2 fuel line rest
  | negative gap e ih =>
    refine ((ih levels h (line + lineBreaks gap.1)).negative line).mono ?_
    simp only [lexemes, List.length_cons, Tier.need]
    omega
  | group before e behind ih =>
    rw [Arithmetic.levels] at h
    obtain ⟨levels, rfl⟩ : ∃ k, levels = k + 2 := ⟨levels - 2, by omega⟩
    have hread := ih levels (by omega) (line + lineBreaks before.1)
    obtain ⟨l, ls, hlexemes, hfailure, hnot, hclose⟩ := e.exists_head_lexemes (line + lineBreaks before.1)
    rw [lexemes, expr]
    rw [hlexemes] at hread ⊢
    refine (hread.group ?_ hfailure hnot hclose line _).mono ?_
    · rw [List.length_cons]
      omega
    · simp only [List.length_cons, List.length_append, List.length_nil, Tier.need]
      omega
  | member x =>
    intro fuel m line' rest hfuel hm
    rw [Arithmetic.levels] at h
    obtain ⟨levels, rfl⟩ : ∃ k, levels = k + 1 := ⟨levels - 1, by omega⟩
    have hlength : ((member x).lexemes line).length = 2 * x.path.length + 1 := by
      simp only [lexemes, Leaf.lexemes, Leaf.pathLexemes, List.length_cons, List.length_flatMap, List.length_nil,
        List.map_const', List.sum_replicate_nat, Nat.mul_comm]
    rw [hlength] at hfuel
    obtain ⟨fuel, rfl⟩ : ∃ k, fuel = k + 1 + x.path.length + 2 := ⟨fuel - (x.path.length + 3), by omega⟩
    have hbar : ∀ m ∈ Tier.followers .operand, (Token.mark m).isMark .bar = false := by decide
    have hhead : (readSigned (fuel + x.path.length + 2) (levels + 1)).run _ = _ :=
      run_readSigned_name (LoopTemplate.namesVariable_of_ne x.head.2.1.2).2 (fuel + x.path.length) line
        (Leaf.pathLexemes line x.path ++ ⟨.mark m, line'⟩ :: rest)
    have hpath := Leaf.run_readPostfix_path hm x.path (fuel + 1) (levels + 1) line line' (.var line x.head.1) rest
    have hfuel' : fuel + x.path.length + 2 = fuel + 1 + x.path.length + 1 := by omega
    have hfuel'' : fuel + 1 + 1 + x.path.length = fuel + 1 + x.path.length + 1 := by omega
    rw [hfuel'] at hhead
    rw [hfuel''] at hpath
    rw [readLevel, lexemes, Leaf.lexemes, List.cons_append, run_bind_ok hhead, run_bind_ok hpath, readFilters,
      run_bind_ok (run_accept_of_not rfl (hbar m hm) rest), if_neg (by simp), run_bind_ok (run_accept_of_not rfl rfl rest)]
    rfl
  | product a before behind b iha ihb =>
    rw [Arithmetic.levels] at h
    have ha := iha levels (by omega) line
    have hb := ihb levels (by omega) (line + lineBreaks a.target + lineBreaks before.1 + lineBreaks behind.1)
    refine (ha.product hb _).mono ?_
    simp only [lexemes, List.length_append, List.length_cons, Tier.need]
    omega
  | sum op a before behind b iha ihb =>
    rw [Arithmetic.levels] at h
    have ha := iha levels (by omega) line
    have hb := ihb levels (by omega) (line + lineBreaks a.target + lineBreaks before.1 + lineBreaks behind.1)
    refine (ha.sum hb (by omega) op _).mono ?_
    simp only [lexemes, List.length_append, List.length_cons, Tier.need]
    omega
  | ofSigned e ih => exact (ih levels h line).ofSigned.mono (by simp only [lexemes, Tier.need]; omega)
  | ofOperand e ih => exact (ih levels h line).ofOperand.mono (by simp only [lexemes, Tier.need]; omega)
  | ofProduct e ih =>
    exact ((ih levels h line).ofProduct (by simp only [Tier.need]; omega)).mono (by simp only [lexemes, Tier.need]; omega)

/-- A sum is read to its end as an argument of a call. -/
theorem run_readExpr_lexemes (e : Arithmetic .sum) {levels : Nat} {m : Mark} (hm : m ∈ Tier.followers .sum)
    (hlevels : e.levels ≤ levels) (fuel line line' : Nat) (hfuel : 16 * (e.lexemes line).length + 17 ≤ fuel)
    (rest : List Lexeme) :
    (readExpr fuel (levels + 1)).run (e.lexemes line ++ ⟨.mark m, line'⟩ :: rest) =
      .ok (e.expr line, ⟨.mark m, line'⟩ :: rest) := by
  have hread := e.isRead_lexemes levels hlevels line
  obtain ⟨l, ls, hlexemes, hfailure, hnot, -⟩ := e.exists_head_lexemes line
  rw [hlexemes] at hread hfuel ⊢
  rw [List.length_cons] at hread hfuel
  exact hread.readExpr (by omega) hfailure hnot hm (by simp only [Tier.need]; omega) line' rest

end Arithmetic

end ViewBridge
