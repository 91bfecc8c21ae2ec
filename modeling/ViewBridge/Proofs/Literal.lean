import ViewBridge.Proofs.Quoting
/-!
# Literals in expressions

An expression is plain text around literals. What the rules make of the plain text depends on the plain text
alone, and what they make of a literal on the literal alone: every literal stays a literal in its place.

Results:
* `Cuts.render`, `mapUnquoted_render`: a rule works text by text and literal by literal.
* `image_closes`: what becomes of a literal is a literal.
* `translate_render`: plain text and literals are translated one by one.
-/
namespace ViewBridge.Expression

open Mode

/-- A literal: a quote, a body in which nothing closes it, and the quote again. -/
structure Literal where
  quote : Char
  body : Chars
  isQuote : Expression.isQuote quote = true
  closes : run false (.inside quote) body = .inside quote

/-- Text without quotes. -/
abbrev Unquoted := { u : Chars // ∀ c ∈ u, isQuote c = false }

namespace Literal

/-- A literal as it is written. -/
def text (l : Literal) : Chars := l.quote :: l.body ++ [l.quote]

/-- What the rules make of a literal. -/
def image (l : Literal) : Chars := spellLogic (tildeJoins (dotArrows (dropSigils l.text)))

end Literal

/-- Plain text and literals in turn, each of them written in some way; plain text is told whether it has a
literal on either side. -/
def render (plain : Bool → Bool → Chars → Chars) (literal : Literal → Chars) (left : Bool) :
    Unquoted → List (Literal × Unquoted) → Chars
  | u, [] => plain left false u.1
  | u, (l, v) :: rest => plain left true u.1 ++ literal l ++ render plain literal true v rest

/-- An expression: plain text around literals. -/
def source (u : Unquoted) (rest : List (Literal × Unquoted)) : Chars :=
  render (fun _ _ u => u) Literal.text false u rest

/-- Trimming at the ends that no literal is at. -/
def trimIn (left right : Bool) (s : Chars) : Chars :=
  let s := if left then s else s.dropWhile Text.isBlank
  if right then s else Text.dropEndWhile Text.isBlank s

/-- What the rules make of plain text. -/
def plainImage (left right : Bool) (u : Chars) : Chars :=
  trimIn left right (spellLogic (negations (rewriteIn left right (quoteKeys u))))

/-! ## One literal after the other -/

/-- A rule for texts between quotes that works by itself on both sides of a quote. -/
def Cuts (rule : Bool → Bool → Chars → Chars) : Prop :=
  ∀ left right {q}, isQuote q = true → ∀ a b,
    rule left right (a ++ q :: b) = rule left true a ++ q :: rule true right b

theorem Cuts.render {rule : Bool → Bool → Chars → Chars} (h : Cuts rule)
    (plain : Bool → Bool → Chars → Chars) (body : Literal → Chars) (left : Bool) (u : Unquoted)
    (rest : List (Literal × Unquoted)) :
    rule left false (render plain (fun l => l.quote :: body l ++ [l.quote]) left u rest) =
      render (fun left right u => rule left right (plain left right u))
        (fun l => l.quote :: rule true true (body l) ++ [l.quote]) left u rest := by
  induction rest generalizing left u with
  | nil => rfl
  | cons p rest ih =>
    obtain ⟨l, v⟩ := p
    simp only [Expression.render]
    have hjoin (x y z : Chars) : x ++ (l.quote :: y ++ [l.quote]) ++ z =
        x ++ l.quote :: (y ++ l.quote :: z) := by simp
    rw [hjoin, h _ _ l.isQuote, h _ _ l.isQuote, ih, hjoin]

theorem cuts_rewriteIn : Cuts rewriteIn := fun left right _ hq => rewriteIn_cut left right hq

theorem cuts_spellLogic : Cuts fun _ _ => spellLogic := fun _ _ _ hq => spellLogic_cut hq

theorem cuts_trimIn : Cuts trimIn := by
  intro left right q hq a b
  have hb := isBlank_of_isQuote hq
  have hstart : (if left then a ++ q :: b else (a ++ q :: b).dropWhile Text.isBlank) =
      (if left then a else a.dropWhile Text.isBlank) ++ q :: b := by
    cases left
    · exact Text.dropWhile_append_cons hb a b
    · rfl
  have hend (a : Chars) : (if right then a ++ q :: b else Text.dropEndWhile Text.isBlank (a ++ q :: b)) =
      a ++ q :: (if right then b else Text.dropEndWhile Text.isBlank b) := by
    cases right
    · simp only [Bool.false_eq_true, ↓reduceIte, Text.dropEndWhile, List.reverse_append,
        List.reverse_cons, List.append_assoc, List.singleton_append]
      rw [Text.dropWhile_append_cons hb]
      simp
    · rfl
  simp only [trimIn, hstart, hend]
  rfl

theorem trimIn_false (s : Chars) : trimIn false false s = Text.trimWhile Text.isBlank s := rfl

/-- A rule for text outside literals works on the texts around them. -/
theorem mapUnquoted_render (rule : Chars → Chars) (plain : Bool → Bool → Chars → Chars)
    (body : Literal → Chars)
    (hplain : ∀ left right, ∀ u : Unquoted, run true .outside (plain left right u.1) = .outside)
    (hbody : ∀ l : Literal, run false (.inside l.quote) (body l) = .inside l.quote) (left : Bool)
    (u : Unquoted) (rest : List (Literal × Unquoted)) :
    mapUnquoted rule (render plain (fun l => l.quote :: body l ++ [l.quote]) left u rest) =
      render (fun left right u => mapUnquoted rule (plain left right u))
        (fun l => l.quote :: body l ++ [l.quote]) left u rest := by
  induction rest generalizing left u with
  | nil => rfl
  | cons p rest ih =>
    obtain ⟨l, v⟩ := p
    simp only [render]
    have hjoin (x y z : Chars) : x ++ (l.quote :: y ++ [l.quote]) ++ z =
        x ++ l.quote :: (y ++ l.quote :: z) := by simp
    rw [hjoin, mapUnquoted_cut rule l.isQuote (hplain left true u),
      readLiteral_of_closes l.isQuote (hbody l), ih]
    simp

theorem run_unquoted (u : Unquoted) : run true .outside u.1 = .outside := by
  obtain ⟨u, hu⟩ := u
  induction u with
  | nil => rfl
  | cons c cs ih =>
    rw [run_cons, step, hu c List.mem_cons_self]
    exact ih fun d hd => hu d (List.mem_cons_of_mem c hd)

/-- Quoted keys are closed again. -/
theorem run_quoteKeys (u : Unquoted) : run true .outside (quoteKeys u.1) = .outside := by
  obtain ⟨u, hu⟩ := u
  rw [quoteKeys, mapUnquoted_eq_self hu]
  induction hn : u.length using Nat.strongRecOn generalizing u with
  | ind n ih =>
    match u with
    | [] => rw [Text.substitute_nil]; rfl
    | c :: cs =>
      simp only [List.length_cons] at hn
      have hcopy : run true .outside (c :: Text.substitute readBareKey cs) = .outside := by
        rw [run_cons, step, hu c List.mem_cons_self]
        exact ih cs.length (by omega) cs (fun d hd => hu d (List.mem_cons_of_mem c hd)) rfl
      rw [Text.substitute]
      cases hf : readBareKey (c :: cs) with
      | none => exact hcopy
      | some r =>
        obtain ⟨out, rest⟩ := r
        simp only
        split
        · obtain ⟨name, hname, hread, rfl⟩ := readBareKey_eq_some hf
          have hsuffix : rest <:+ c :: cs := ⟨'[' :: (name ++ [']']), by rw [hread]; simp⟩
          have hbare : Bare name := fun d hd => isQuote_of_nameChar (hname d hd)
          have hkey : run true .outside ("['".toList ++ name ++ "']".toList) = .outside := by
            rw [run_append, run_append]
            by_cases hnil : name = []
            · rw [hnil]; rfl
            · rw [run_bare _ _ hbare hnil]; rfl
          rw [run_append, hkey]
          exact ih rest.length (by omega) rest (fun d hd => hu d (hsuffix.mem hd)) rfl
        · exact hcopy

theorem image_eq (l : Literal) :
    l.image = l.quote :: spellLogic (rewriteIn true true l.body) ++ [l.quote] := by
  rw [Literal.image, ← rewriteIn_false, Literal.text, List.cons_append,
    ← List.nil_append (l.quote :: (l.body ++ [l.quote])), rewriteIn_cut false false l.isQuote,
    rewriteIn_cut true false l.isQuote, rewriteIn_nil, rewriteIn_nil, spellLogic_cut l.isQuote,
    spellLogic_cut l.isQuote, spellLogic_nil]
  rfl

/-- The image of a literal is a literal. -/
theorem image_closes (l : Literal) :
    run false (.inside l.quote) (spellLogic (rewriteIn true true l.body)) = .inside l.quote := by
  rw [run_spellLogic, run_rewriteIn, l.closes]

/-- Plain text and literals are translated one by one, and stay in their places. -/
theorem translate_render (u : Unquoted) (rest : List (Literal × Unquoted)) :
    translate (source u rest) = render plainImage Literal.image false u rest := by
  have hkeys : quoteKeys (source u rest) = render (fun _ _ => quoteKeys) Literal.text false u rest :=
    mapUnquoted_render (Text.substitute readBareKey) (fun _ _ u => u) Literal.body
      (fun _ _ => run_unquoted) Literal.closes false u rest
  have hrewrite := cuts_rewriteIn.render (fun _ _ => quoteKeys) Literal.body false u rest
  have hnegations := mapUnquoted_render spellNot (fun left right u => rewriteIn left right (quoteKeys u))
    (fun l => rewriteIn true true l.body)
    (fun left right u => by rw [run_rewriteIn, run_quoteKeys])
    (fun l => by rw [run_rewriteIn, l.closes]) false u rest
  have hlogic := cuts_spellLogic.render (fun left right u => negations (rewriteIn left right (quoteKeys u)))
    (fun l => rewriteIn true true l.body) false u rest
  have htrim := cuts_trimIn.render
    (fun left right u => spellLogic (negations (rewriteIn left right (quoteKeys u))))
    (fun l => spellLogic (rewriteIn true true l.body)) false u rest
  rw [translate, ← trimIn_false, ← rewriteIn_false, hkeys]
  unfold Literal.text negations
  rw [hrewrite, hnegations]
  refine (congrArg (trimIn false false) hlogic).trans (htrim.trans ?_)
  congr 1
  funext l
  exact (image_eq l).symm

end ViewBridge.Expression
