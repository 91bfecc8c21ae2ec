import ViewBridge.Proofs.Literal
/-!
# Literals that keep their text

The rules that know no literals rewrite a literal like any other text. Each of them uses up a character that
no later rule brings back, so a text comes out as it went in exactly if none of them finds anything in it.

Results:
* `runRules_eq_self_iff`: a chain of such rules that changes nothing finds nothing.
* `image_eq_iff`: the literals that keep their text.
* `translate_source`: what becomes of literals, and the expressions in which all of them keep their text.
-/
namespace ViewBridge.Expression

open Mode

/-- A rule, as what it reads at the start of a text and writes for it. -/
abbrev Rule := Chars → Option (Chars × Chars)

/-! ## Characters that are used up -/

/-- A rule that writes no more of a character than it reads. -/
def Keeps (x : Char) (rule : Rule) : Prop :=
  ∀ ⦃s out rest⦄, rule s = some (out, rest) → ∃ used, s = used ++ rest ∧ out.count x ≤ used.count x

/-- A rule that writes less of a character than it reads. -/
def Drops (x : Char) (rule : Rule) : Prop :=
  ∀ ⦃s out rest⦄, rule s = some (out, rest) → ∃ used, s = used ++ rest ∧ out.count x < used.count x

theorem Drops.keeps {x : Char} {rule : Rule} (h : Drops x rule) : Keeps x rule := by
  intro s out rest hf
  obtain ⟨used, hs, hlt⟩ := h hf
  exact ⟨used, hs, hlt.le⟩

theorem Keeps.count_le {x : Char} {rule : Rule} (h : Keeps x rule) (s : Chars) :
    (Text.substitute rule s).count x ≤ s.count x := by
  rw [Text.substitute_eq_substituteFrom]
  exact Text.count_substituteFrom_le (fun hf => h (Text.stateless_eq_some hf)) () s

/-- A rule that uses up a character and leaves all of it has found nothing. -/
theorem Drops.none_of_count {x : Char} {rule : Rule} (h : Drops x rule) {s : Chars}
    (hs : (Text.substitute rule s).count x = s.count x) {t : Chars} (ht : t <:+ s) : rule t = none := by
  rw [Text.substitute_eq_substituteFrom] at hs
  have hnone := Text.find_eq_none_of_count (fun hf => h (Text.stateless_eq_some hf)) hs ht
  exact Option.map_eq_none_iff.1 hnone

/-! ## Chains of rules -/

/-- Rules one after the other, each with the character that it uses up. -/
def runRules (rules : List (Char × Rule)) (s : Chars) : Chars :=
  rules.foldl (fun s rule => Text.substitute rule.2 s) s

theorem count_runRules_le {x : Char} {rules : List (Char × Rule)} (h : ∀ rule ∈ rules, Keeps x rule.2)
    (s : Chars) : (runRules rules s).count x ≤ s.count x := by
  induction rules generalizing s with
  | nil => exact Nat.le_refl _
  | cons rule rules ih =>
    rw [List.forall_mem_cons] at h
    exact (ih h.2 (Text.substitute rule.2 s)).trans (h.1.count_le s)

/-- A chain of rules changes nothing exactly if none of them finds anything, provided that no rule and
nothing behind the chain brings back what an earlier rule uses up. -/
theorem runRules_eq_self_iff {rules : List (Char × Rule)} {behind : Chars → Chars}
    (hdrops : ∀ rule ∈ rules, Drops rule.1 rule.2)
    (hkeeps : rules.Pairwise fun rule later => Keeps rule.1 later.2)
    (hbehind : ∀ rule ∈ rules, ∀ s, (behind s).count rule.1 ≤ s.count rule.1) (s : Chars) :
    behind (runRules rules s) = s ↔
      (∀ rule ∈ rules, ∀ t, t <:+ s → rule.2 t = none) ∧ behind s = s := by
  induction rules with
  | nil => simp [runRules]
  | cons rule rules ih =>
    simp only [List.forall_mem_cons] at hdrops hbehind ⊢
    rw [List.pairwise_cons] at hkeeps
    have ih := ih hdrops.2 hkeeps.2 hbehind.2
    have hself (h : ∀ t, t <:+ s → rule.2 t = none) : runRules (rule :: rules) s = runRules rules s := by
      rw [runRules, List.foldl_cons, Text.substitute_eq_self h, runRules]
    constructor
    · intro h
      have hnone : ∀ t, t <:+ s → rule.2 t = none := by
        intro t ht
        refine hdrops.1.none_of_count ?_ ht
        have h1 := hdrops.1.keeps.count_le s
        have h2 := count_runRules_le hkeeps.1 (Text.substitute rule.2 s)
        have h3 := hbehind.1 (runRules (rule :: rules) s)
        rw [h] at h3
        have h4 : runRules (rule :: rules) s = runRules rules (Text.substitute rule.2 s) := rfl
        rw [h4] at h3
        omega
      rw [hself hnone] at h
      exact ⟨⟨hnone, (ih.1 h).1⟩, (ih.1 h).2⟩
    · rintro ⟨⟨hnone, hrest⟩, hlast⟩
      rw [hself hnone]
      exact ih.2 ⟨hrest, hlast⟩

/-! ## The rules that know no literals -/

theorem keeps_exchange {x : Char} {old new : Chars} (h : new.count x ≤ old.count x) :
    Keeps x (Text.exchange old new) := by
  intro s out rest hf
  obtain ⟨rfl, hs⟩ := Text.exchange_eq_some hf
  exact ⟨old, hs, h⟩

theorem drops_exchange {x : Char} {old new : Chars} (h : new.count x < old.count x) :
    Drops x (Text.exchange old new) := by
  intro s out rest hf
  obtain ⟨rfl, hs⟩ := Text.exchange_eq_some hf
  exact ⟨old, hs, h⟩

theorem drops_readSigil : Drops '$' readSigil := by
  intro s out rest hf
  obtain ⟨c, -, rfl, rfl⟩ := readSigil_eq_some hf
  exact ⟨['$', c], rfl, by simp [List.count_cons]⟩

/-- The characters that the rules use up. -/
def marks : Chars := "$>.&|".toList

theorem forall_marks {p : Char → Prop} [DecidablePred p] (h : (marks.all fun x => p x) = true) :
    ∀ x ∈ marks, p x := fun x hx => of_decide_eq_true (List.all_eq_true.1 h x hx)

theorem count_tilde : ∀ x ∈ marks, " ~ ".toList.count x = 0 := forall_marks (by decide)

theorem keeps_readQuoteDot {x : Char} (hx : x ∈ marks) : Keeps x readQuoteDot := by
  intro s out rest hf
  obtain ⟨q, c, -, -, rfl, rfl⟩ := readQuoteDot_eq_some hf
  refine ⟨[q] ++ ['.'] ++ [c], rfl, ?_⟩
  rw [show q :: " ~ ".toList ++ [c] = [q] ++ " ~ ".toList ++ [c] from rfl]
  simp only [List.count_append, count_tilde x hx]
  omega

theorem drops_readQuoteDot : Drops '.' readQuoteDot := by
  intro s out rest hf
  obtain ⟨q, c, -, -, rfl, rfl⟩ := readQuoteDot_eq_some hf
  refine ⟨[q] ++ ['.'] ++ [c], rfl, ?_⟩
  rw [show q :: " ~ ".toList ++ [c] = [q] ++ " ~ ".toList ++ [c] from rfl]
  simp only [List.count_append, count_tilde '.' (by decide), List.count_singleton_self]
  omega

theorem keeps_readDotQuote {x : Char} (hx : x ∈ marks) : Keeps x readDotQuote := by
  intro s out rest hf
  obtain ⟨c, q, -, -, rfl, rfl⟩ := readDotQuote_eq_some hf
  refine ⟨[c] ++ ['.'] ++ [q], rfl, ?_⟩
  rw [show c :: " ~ ".toList ++ [q] = [c] ++ " ~ ".toList ++ [q] from rfl]
  simp only [List.count_append, count_tilde x hx]
  omega

theorem drops_readDotQuote : Drops '.' readDotQuote := by
  intro s out rest hf
  obtain ⟨c, q, -, -, rfl, rfl⟩ := readDotQuote_eq_some hf
  refine ⟨[c] ++ ['.'] ++ [q], rfl, ?_⟩
  rw [show c :: " ~ ".toList ++ [q] = [c] ++ " ~ ".toList ++ [q] from rfl]
  simp only [List.count_append, count_tilde '.' (by decide), List.count_singleton_self]
  omega

theorem keeps_readSpaced {x : Char} (operator : Chars) {word : Chars} (h : word.count x = 0) :
    Keeps x (readSpaced operator word) := by
  intro s out rest hf
  obtain ⟨rfl, before, behind, -, rfl⟩ := readSpaced_eq_some hf
  exact ⟨before ++ operator ++ behind, rfl, by omega⟩

theorem drops_readSpaced {x : Char} {operator word : Chars} (h : word.count x < operator.count x) :
    Drops x (readSpaced operator word) := by
  intro s out rest hf
  obtain ⟨rfl, before, behind, -, rfl⟩ := readSpaced_eq_some hf
  refine ⟨before ++ operator ++ behind, rfl, ?_⟩
  simp only [List.count_append]
  omega

theorem keeps_readLogicWord {x : Char} (hx : x ∈ marks) : Keeps x readLogicWord := by
  have hwords : ∀ x ∈ marks, (' ' :: "and".toList ++ [' ']).count x = 0 ∧
      (' ' :: "or".toList ++ [' ']).count x = 0 := forall_marks (by decide)
  intro s out rest hf
  obtain ⟨used, hs, -⟩ := barred_readLogicWord.finds hf
  refine ⟨used, hs, ?_⟩
  have hout {word : Chars} (h : readWord word s = some (out, rest)) : out = ' ' :: word ++ [' '] := by
    obtain ⟨s₁, -, h⟩ := Option.bind_eq_some_iff.1 h
    obtain ⟨s₂, -, h⟩ := Option.bind_eq_some_iff.1 h
    obtain ⟨s₃, -, h⟩ := Option.map_eq_some_iff.1 h
    exact (Prod.mk.inj h).1.symm
  rw [readLogicWord_eq] at hf
  rcases Option.or_eq_some_iff.1 hf with hf | ⟨-, hf⟩
  · rw [hout hf, (hwords x hx).1]; exact Nat.zero_le _
  · rw [hout hf, (hwords x hx).2]; exact Nat.zero_le _

/-- The rules for joining dots and logical operators, and what each of them uses up. -/
def joinRules : List (Char × Rule) :=
  [('.', Text.exchange " . ".toList " ~ ".toList), ('.', readQuoteDot), ('.', readDotQuote),
    ('&', readSpaced "&&".toList " and ".toList), ('|', readSpaced "||".toList " or ".toList)]

/-- The rules that know no literals, up to the logical words. -/
def markedRules : List (Char × Rule) :=
  ('$', readSigil) :: ('>', Text.exchange "->".toList ".".toList) :: joinRules

theorem drops_markedRules : ∀ rule ∈ markedRules, Drops rule.1 rule.2 := by
  simp only [markedRules, joinRules, List.forall_mem_cons]
  exact ⟨drops_readSigil, drops_exchange (by decide), drops_exchange (by decide), drops_readQuoteDot,
    drops_readDotQuote, drops_readSpaced (by decide), drops_readSpaced (by decide), by simp⟩

theorem mark_mem : ∀ rule ∈ markedRules, rule.1 ∈ marks := by
  simp only [markedRules, joinRules, List.forall_mem_cons]
  exact ⟨by decide, by decide, by decide, by decide, by decide, by decide, by decide, by simp⟩

theorem keeps_joinRules {x : Char} (hx : x ∈ marks) : ∀ rule ∈ joinRules, Keeps x rule.2 := by
  have hwords : ∀ x ∈ marks, " and ".toList.count x = 0 ∧ " or ".toList.count x = 0 :=
    forall_marks (by decide)
  simp only [joinRules, List.forall_mem_cons]
  exact ⟨keeps_exchange (by rw [count_tilde x hx]; exact Nat.zero_le _), keeps_readQuoteDot hx,
    keeps_readDotQuote hx, keeps_readSpaced _ (hwords x hx).1, keeps_readSpaced _ (hwords x hx).2, by simp⟩

theorem keeps_markedRules : markedRules.Pairwise fun rule later => Keeps rule.1 later.2 := by
  rw [markedRules, List.pairwise_cons, List.pairwise_cons, List.forall_mem_cons]
  refine ⟨⟨keeps_exchange (by decide), keeps_joinRules (by decide)⟩, keeps_joinRules (by decide), ?_⟩
  refine List.pairwise_of_forall_mem_list fun rule hrule later hlater => ?_
  exact keeps_joinRules (mark_mem rule (by simp [markedRules, hrule])) later hlater

/-- What the rules that know no literals make of a text. -/
theorem runRules_markedRules (s : Chars) :
    Text.substitute readLogicWord (runRules markedRules s) =
      spellLogic (tildeJoins (dotArrows (dropSigils s))) := by
  rw [dropSigils_eq, dotArrows, tildeJoins, Text.replace_eq_substitute _ (by decide),
    Text.replace_eq_substitute _ (by decide)]
  rfl

/-- A text in which no rule finds anything to rewrite. -/
structure Calm (s : Chars) : Prop where
  sigil : ∀ c, Text.isNameStart c = true → ¬ ['$', c] <:+: s
  arrow : ¬ "->".toList <:+: s
  dot : ¬ " . ".toList <:+: s
  quoteDot : ∀ q c, isQuote q = true → Text.isNameStart c = true → ¬ [q, '.', c] <:+: s
  dotQuote : ∀ c q, joinsDot c = true → isQuote q = true → ¬ [c, '.', q] <:+: s
  conjunction : ¬ "&&".toList <:+: s
  disjunction : ¬ "||".toList <:+: s
  words : Text.substitute readLogicWord s = s

/-- A rule finds nothing in a text exactly if none of the texts that it looks for occurs there. -/
theorem finds_nothing_iff (rule : Rule) (looksFor : Chars → Prop)
    (hfound : ∀ t r, rule t = some r → ∃ w, looksFor w ∧ w <:+: t)
    (hfinds : ∀ w t, looksFor w → rule (w ++ t) ≠ none) (s : Chars) :
    (∀ t, t <:+ s → rule t = none) ↔ ∀ w, looksFor w → ¬ w <:+: s := by
  constructor
  · intro h w hw hs
    obtain ⟨t, ⟨u, rfl⟩, ht⟩ := List.infix_iff_prefix_suffix.1 hs
    exact hfinds w u hw (h _ ht)
  · intro h t ht
    cases hf : rule t with
    | none => rfl
    | some r =>
      obtain ⟨w, hw, hi⟩ := hfound t r hf
      exact absurd (hi.trans ht.isInfix) (h w hw)

theorem exchange_none_iff (old new s : Chars) :
    (∀ t, t <:+ s → Text.exchange old new t = none) ↔ ¬ old <:+: s := by
  have hiff := finds_nothing_iff (Text.exchange old new) (· = old) ?_ ?_ s
  · simpa using hiff
  · intro t r hf
    obtain ⟨rest, hr, -⟩ := Option.map_eq_some_iff.1 hf
    exact ⟨old, rfl, [], rest, (Text.after?_eq_some_iff.1 hr).symm⟩
  · rintro w t rfl
    simp [Text.exchange]

theorem readSpaced_none_iff {c : Char} {cs : Chars} (hc : Text.isBlank c = false) (word s : Chars) :
    (∀ t, t <:+ s → readSpaced (c :: cs) word t = none) ↔ ¬ c :: cs <:+: s := by
  have hiff := finds_nothing_iff (readSpaced (c :: cs) word) (· = c :: cs) ?_ ?_ s
  · simpa using hiff
  · intro t r hf
    obtain ⟨-, before, behind, -, ht⟩ := readSpaced_eq_some (show _ = some (r.1, r.2) from hf)
    exact ⟨c :: cs, rfl, before, behind ++ r.2, by rw [ht]; simp⟩
  · rintro w t rfl
    have hread := Text.after?_append (c :: cs) t
    rw [List.cons_append] at hread
    simp [readSpaced, hc, hread]

theorem readSigil_none_iff (s : Chars) :
    (∀ t, t <:+ s → readSigil t = none) ↔ ∀ c, Text.isNameStart c = true → ¬ ['$', c] <:+: s := by
  rw [finds_nothing_iff readSigil fun w => ∃ c, Text.isNameStart c = true ∧ w = ['$', c]]
  · exact ⟨fun h c hc => h _ ⟨c, hc, rfl⟩, fun h w ⟨c, hc, hw⟩ => hw ▸ h c hc⟩
  · intro t r hf
    obtain ⟨c, hc, rfl, -⟩ := readSigil_eq_some (show _ = some (r.1, r.2) from hf)
    exact ⟨_, ⟨c, hc, rfl⟩, [], r.2, rfl⟩
  · rintro w t ⟨c, hc, rfl⟩
    simp [readSigil, hc]

theorem readQuoteDot_none_iff (s : Chars) :
    (∀ t, t <:+ s → readQuoteDot t = none) ↔
      ∀ q c, isQuote q = true → Text.isNameStart c = true → ¬ [q, '.', c] <:+: s := by
  rw [finds_nothing_iff readQuoteDot fun w =>
    ∃ q c, isQuote q = true ∧ Text.isNameStart c = true ∧ w = [q, '.', c]]
  · exact ⟨fun h q c hq hc => h _ ⟨q, c, hq, hc, rfl⟩, fun h w ⟨q, c, hq, hc, hw⟩ => hw ▸ h q c hq hc⟩
  · intro t r hf
    obtain ⟨q, c, hq, hc, rfl, -⟩ := readQuoteDot_eq_some (show _ = some (r.1, r.2) from hf)
    exact ⟨_, ⟨q, c, hq, hc, rfl⟩, [], r.2, rfl⟩
  · rintro w t ⟨q, c, hq, hc, rfl⟩
    simp [readQuoteDot, hq, hc]

theorem readDotQuote_none_iff (s : Chars) :
    (∀ t, t <:+ s → readDotQuote t = none) ↔
      ∀ c q, joinsDot c = true → isQuote q = true → ¬ [c, '.', q] <:+: s := by
  rw [finds_nothing_iff readDotQuote fun w =>
    ∃ c q, joinsDot c = true ∧ isQuote q = true ∧ w = [c, '.', q]]
  · exact ⟨fun h c q hc hq => h _ ⟨c, q, hc, hq, rfl⟩, fun h w ⟨c, q, hc, hq, hw⟩ => hw ▸ h c q hc hq⟩
  · intro t r hf
    obtain ⟨c, q, hc, hq, rfl, -⟩ := readDotQuote_eq_some (show _ = some (r.1, r.2) from hf)
    exact ⟨_, ⟨c, q, hc, hq, rfl⟩, [], r.2, rfl⟩
  · rintro w t ⟨c, q, hc, hq, rfl⟩
    have hjoin : Text.isNameChar c = true ∨ c = ')' := by simpa [joinsDot] using hc
    simp [readDotQuote, hq, hjoin]

theorem calm_iff (s : Chars) :
    (∀ rule ∈ markedRules, ∀ t, t <:+ s → rule.2 t = none) ∧ Text.substitute readLogicWord s = s ↔
      Calm s := by
  have hand : (∀ t, t <:+ s → readSpaced "&&".toList " and ".toList t = none) ↔ ¬ "&&".toList <:+: s :=
    readSpaced_none_iff (by decide) _ s
  have hor : (∀ t, t <:+ s → readSpaced "||".toList " or ".toList t = none) ↔ ¬ "||".toList <:+: s :=
    readSpaced_none_iff (by decide) _ s
  simp only [markedRules, joinRules, List.forall_mem_cons, readSigil_none_iff, exchange_none_iff,
    readQuoteDot_none_iff, readDotQuote_none_iff, hand, hor]
  constructor
  · rintro ⟨⟨hsigil, harrow, hdot, hquote, hdotquote, hand, hor, -⟩, hwords⟩
    exact ⟨hsigil, harrow, hdot, hquote, hdotquote, hand, hor, hwords⟩
  · rintro ⟨hsigil, harrow, hdot, hquote, hdotquote, hand, hor, hwords⟩
    exact ⟨⟨hsigil, harrow, hdot, hquote, hdotquote, hand, hor, by simp⟩, hwords⟩

/-- The literals that keep their text. -/
theorem image_eq_iff (l : Literal) : l.image = l.text ↔ Calm l.text := by
  have hwords : ∀ rule ∈ markedRules, ∀ s : Chars,
      (Text.substitute readLogicWord s).count rule.1 ≤ s.count rule.1 := fun rule hrule =>
    (keeps_readLogicWord (mark_mem rule hrule)).count_le
  rw [Literal.image, ← runRules_markedRules,
    runRules_eq_self_iff drops_markedRules keeps_markedRules hwords, calm_iff]

/-! ## Expressions whose literals keep their text -/

/-- Where a literal ends can be read off the text, so literals in the same places can be compared. -/
theorem render_inj {plain : Bool → Bool → Chars → Chars} {body body' : Literal → Chars}
    (h : ∀ l : Literal, run false (.inside l.quote) (body l) = .inside l.quote)
    (h' : ∀ l : Literal, run false (.inside l.quote) (body' l) = .inside l.quote) (left : Bool)
    (u : Unquoted) (rest : List (Literal × Unquoted)) :
    render plain (fun l => l.quote :: body l ++ [l.quote]) left u rest =
        render plain (fun l => l.quote :: body' l ++ [l.quote]) left u rest ↔
      ∀ p ∈ rest, body p.1 = body' p.1 := by
  induction rest generalizing left u with
  | nil => simp [render]
  | cons p rest ih =>
    obtain ⟨l, v⟩ := p
    rw [List.forall_mem_cons, ← ih true v]
    simp only [render, List.append_assoc, List.append_cancel_left_eq, List.cons_append,
      List.cons.injEq, true_and, List.nil_append]
    constructor
    · intro heq
      have hread := congrArg (readLiteral l.quote) heq
      rw [readLiteral_of_closes l.isQuote (h l), readLiteral_of_closes l.isQuote (h' l),
        Prod.mk.injEq, List.append_cancel_right_eq] at hread
      exact hread
    · rintro ⟨hbody, hrest⟩
      rw [hbody, hrest]

/-- An expression is translated text by text and literal by literal, and its literals all keep their text
exactly if none of the rules that know no literals finds anything in them. -/
theorem translate_source (u : Unquoted) (rest : List (Literal × Unquoted)) :
    translate (source u rest) = render plainImage Literal.image false u rest ∧
      (translate (source u rest) = render plainImage Literal.text false u rest ↔
        ∀ p ∈ rest, Calm p.1.text) := by
  have himage : Literal.image =
      fun l => l.quote :: spellLogic (rewriteIn true true l.body) ++ [l.quote] := funext image_eq
  refine ⟨translate_render u rest, ?_⟩
  rw [translate_render, himage]
  refine (render_inj image_closes Literal.closes false u rest).trans ?_
  refine forall₂_congr fun p _ => ?_
  rw [← image_eq_iff, image_eq, Literal.text]
  simp

example : ¬ Calm "'a && b'".toList := fun h => h.conjunction ⟨"'a ".toList, " b'".toList, by decide⟩

end ViewBridge.Expression
