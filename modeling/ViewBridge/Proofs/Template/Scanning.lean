import ViewBridge.Template.Scanner
import ViewBridge.Proofs.Frame
import ViewBridge.Proofs.Infix
/-!
# Scanning text, comments and raw blocks

What the scanner makes of text up to the next tag, of a whole comment and of a whole raw block. A comment ends
at the first end mark and a raw block at the first end tag, so each is read to its own end exactly as long as
none stands in its body.

Results:
* `scanText_of_no_brace`: text without a tag is one token.
* `scanText_comment`: a comment is no token.
* `readRaw_append`: a raw block whose body has no end tag goes on behind the body.
* `scanText_raw`: a raw block is one token, its body.
* `tokens_comment`, `tokens_raw`: the tokens of a template with one block in it.
-/
namespace ViewBridge.Template

/-! ## Up to the next tag -/

theorem splitAtTag_append {pre : Chars} (hpre : '\x7b' ∉ pre) {c : Char} {o : Opening}
    (ho : openingOf? '\x7b' c = some o) (rest : Chars) :
    splitAtTag (pre ++ '\x7b' :: c :: rest) = (pre, some (o, rest)) := by
  induction pre with
  | nil => simp [splitAtTag, ho]
  | cons a pre ih =>
    obtain ⟨ha, hpre⟩ : a ≠ '\x7b' ∧ '\x7b' ∉ pre := by simpa [eq_comm] using hpre
    have hnext : ∃ b s, pre ++ '\x7b' :: c :: rest = b :: s := by cases pre <;> exact ⟨_, _, rfl⟩
    obtain ⟨b, s, hs⟩ := hnext
    rw [List.cons_append, hs, splitAtTag, show openingOf? a b = none by simp [openingOf?, ha], ← hs, ih hpre]

variable {pre body post : Chars}

/-- Text without a tag is one token, or none if it is empty. -/
theorem scanText_of_no_brace {s : Chars} (hs : '\x7b' ∉ s) (fuel line : Nat) :
    scanText (fuel + 1) false line s = dataTokens line s := by
  simp [scanText, splitAtTag_of_no_brace hs, lineBreaks]

theorem readSign_of_no_sign {c : Char} (hc : c ≠ '-' ∧ c ≠ '+') (rest : Chars) :
    readSign (c :: rest) = (none, c :: rest) := by
  simp [readSign, hc]

/-! ## Comments -/

/-- A comment without an end mark in its body is no token. -/
theorem scanText_comment (hpre : '\x7b' ∉ pre) (hbody : ¬ ['#', '\x7d'] <:+: body) (rest : Chars)
    (fuel line : Nat) : ∃ line', scanText (fuel + 1) false line (pre ++ (Dialect.comment body ++ rest)) =
      dataTokens line pre ++ scanText fuel false line' rest := by
  have hinside : ¬ ['#', '\x7d'] <:+: ' ' :: (body ++ [' ']) := by
    intro h
    refine hbody (Text.concat_infix_of_infix_append (w := ['#']) (t := [' ']) (by decide) ?_)
    exact Text.infix_of_infix_append (s := [' ']) (by decide) h
  have hcut : Text.cut? ['#', '\x7d'] (' ' :: (body ++ (' ' :: '#' :: '\x7d' :: rest))) =
      some (' ' :: (body ++ [' ']), rest) := by
    have := Text.cut?_append_self (show '#' ∉ ['\x7d'] by decide) hinside rest
    simpa using this
  have hshape : pre ++ (Dialect.comment body ++ rest) =
      pre ++ '\x7b' :: '#' :: ' ' :: (body ++ (' ' :: '#' :: '\x7d' :: rest)) := by
    simp [Dialect.comment]
  have hlast : ((none : Option Char).toList ++ ' ' :: (body ++ [' '])).getLast? = some ' ' :=
    List.getLast?_eq_some_iff.2 ⟨' ' :: body, rfl⟩
  have hsplit := splitAtTag_append hpre (c := '#') (o := .comment) rfl
    (' ' :: (body ++ (' ' :: '#' :: '\x7d' :: rest)))
  refine ⟨line + lineBreaks pre + lineBreaks (' ' :: (body ++ [' '])), ?_⟩
  rw [hshape, scanText]
  simp only [Bool.false_eq_true, if_false, List.length_nil, List.drop_zero, hsplit,
    readSign_of_no_sign (c := ' ') (by decide), hcut, hlast]
  rfl

/-! ## Raw blocks -/

theorem readSign_append (s : Chars) {t : Chars} (ht : ∀ c ∈ t.head?, c ≠ '-' ∧ c ≠ '+') :
    readSign (s ++ t) = ((readSign s).1, (readSign s).2 ++ t) := by
  cases s with
  | nil =>
    cases t with
    | nil => rfl
    | cons c t => simp [readSign, ht c rfl]
  | cons c s =>
    rw [List.cons_append, readSign, readSign]
    split <;> rfl

/-- Whether a tag of one word ends is seen before the next brace. -/
theorem readWordTag_append {word : Chars} (hword : '\x7b' ∉ word) (s t : Chars) :
    readWordTag word (s ++ '\x7b' :: t) =
      (readWordTag word s).map fun (sign, rest) => (sign, rest ++ '\x7b' :: t) := by
  have hblanks (s : Chars) : (s ++ '\x7b' :: t).dropWhile isTagBlank =
      s.dropWhile isTagBlank ++ '\x7b' :: t := by
    rw [List.dropWhile_append]
    split
    · rename_i h
      rw [List.isEmpty_iff.1 h]
      rfl
    · rfl
  have hclosing : '\x7b' ∉ TagKind.statement.closing := by decide
  unfold readWordTag
  rw [hblanks, Text.after?_append_cons hword]
  cases Text.after? word (s.dropWhile isTagBlank) with
  | none => rfl
  | some s =>
    simp only [Option.map_some, Option.bind_eq_bind, Option.bind_some, hblanks]
    rw [readSign_append _ (by simp)]
    simp only [Text.after?_append_cons hclosing]
    cases Text.after? TagKind.statement.closing (readSign (s.dropWhile isTagBlank)).2 <;> rfl

/-- A raw block whose body has no end tag goes on behind the body. -/
theorem readRaw_append (hbody : readRaw body = none) (t : Chars) :
    readRaw (body ++ '\x7b' :: '%' :: t) =
      (readRaw ('\x7b' :: '%' :: t)).map fun (rest, tail) => (body ++ rest, tail) := by
  fun_induction readRaw body with
  | case1 rest before inside hsign after rest' htag => cases hbody
  | case2 rest before inside hsign htag ih =>
    have hsign' := readSign_append rest (t := '\x7b' :: '%' :: t) (by simp)
    rw [hsign] at hsign'
    have htag' := readWordTag_append (show '\x7b' ∉ "endraw".toList by decide) inside ('%' :: t)
    rw [htag, Option.map_none] at htag'
    rw [List.cons_append, List.cons_append, readRaw, hsign']
    simp only [htag']
    rw [← List.cons_append, ih (by simpa using hbody), Option.map_map]
    rfl
  | case3 c rest hnot ih =>
    have hnot' : ∀ u, c = '\x7b' → rest ++ '\x7b' :: '%' :: t = '%' :: u → False := by
      intro u hc hrest
      cases rest with
      | nil => simp at hrest
      | cons d rest =>
        obtain ⟨rfl, -⟩ := List.cons.inj hrest
        exact hnot rest hc rfl
    rw [List.cons_append, readRaw.eq_2 _ _ hnot', ih (by simpa using hbody), Option.map_map]
    rfl
  | case4 =>
    rw [List.nil_append]
    cases readRaw ('\x7b' :: '%' :: t) <;> rfl

/-- A raw block without an end tag in its body is one token. -/
theorem scanText_raw (hpre : '\x7b' ∉ pre) (hbody : readRaw body = none) (rest : Chars) (fuel line : Nat) :
    ∃ line' line'',
      scanText (fuel + 1) false line (pre ++ (Dialect.verbatim .minijinja body ++ rest)) =
        dataTokens line pre ++ ⟨.data body, line'⟩ :: scanText fuel false line'' rest := by
  have hshape : pre ++ (Dialect.verbatim .minijinja body ++ rest) =
      pre ++ '\x7b' :: '%' :: (" raw %\x7d".toList ++
        (body ++ '\x7b' :: '%' :: (" endraw %\x7d".toList ++ rest))) := by
    simp [Dialect.verbatim, Dialect.tag]
  have hend : readRaw ('\x7b' :: '%' :: (" endraw %\x7d".toList ++ rest)) = some ([], none, none, rest) := by
    rw [readRaw]
    rfl
  have hraw : readRaw (body ++ '\x7b' :: '%' :: (" endraw %\x7d".toList ++ rest)) =
      some (body, none, none, rest) := by
    rw [readRaw_append hbody, hend]
    simp
  have hsplit := splitAtTag_append hpre (c := '%') (o := .tag .statement) rfl
    (" raw %\x7d".toList ++ (body ++ '\x7b' :: '%' :: (" endraw %\x7d".toList ++ rest)))
  have hsign (s : Chars) : readSign (" raw %\x7d".toList ++ s) = (none, " raw %\x7d".toList ++ s) := rfl
  have hword (s : Chars) : readWordTag "raw".toList (" raw %\x7d".toList ++ s) = some (none, s) := rfl
  rw [hshape, scanText]
  simp only [Bool.false_eq_true, if_false, List.length_nil, List.drop_zero, hsplit, hsign, hword, hraw]
  exact ⟨_, _, rfl⟩

/-! ## Whole templates -/

theorem before?_singleton (c : Char) (s : Chars) :
    Text.before? [c] s = if s.getLast? = some c then some s.dropLast else none := by
  rcases List.eq_nil_or_concat' s with rfl | ⟨init, d, rfl⟩
  · simp [Text.before?, Text.after?]
  · by_cases h : c = d
    · subst h
      simp [Text.before?_eq_some_iff]
    · simp [Text.before?, Text.after?, h, Ne.symm h]

/-- Only the end of a template can lose a line break. -/
theorem withoutLastBreak_append {s : Chars} (hs : ∀ c ∈ s.getLast?, c ≠ '\n' ∧ c ≠ '\r') (t : Chars) :
    withoutLastBreak (s ++ t) = s ++ withoutLastBreak t := by
  have hdrop {c : Char} (hc : c = '\n' ∨ c = '\r') (t : Chars) :
      (Text.before? [c] (s ++ t)).getD (s ++ t) = s ++ (Text.before? [c] t).getD t := by
    rw [before?_singleton, before?_singleton]
    rcases List.eq_nil_or_concat' t with rfl | ⟨init, d, rfl⟩
    · have hlast : s.getLast? ≠ some c := fun h => by
        rcases hc with rfl | rfl
        · exact (hs _ h).1 rfl
        · exact (hs _ h).2 rfl
      simp [hlast]
    · by_cases hd : d = c <;> simp [hd, ← List.append_assoc]
  rw [withoutLastBreak, withoutLastBreak]
  simp only [hdrop (.inl rfl), hdrop (.inr rfl)]

/-- There is no line break behind a tag. -/
theorem withoutLastBreak_of_getLast? {s : Chars} (h : s.getLast? = some '\x7d') : withoutLastBreak s = s := by
  have hlast : ∀ c ∈ s.getLast?, c ≠ '\n' ∧ c ≠ '\r' := by
    rw [h]
    rintro c ⟨⟩
    decide
  have hbreak := withoutLastBreak_append hlast []
  rwa [List.append_nil, show withoutLastBreak [] = [] from rfl, List.append_nil] at hbreak

theorem prefix_withoutLastBreak (s : Chars) : withoutLastBreak s <+: s := by
  have hdrop (c : Char) (s : Chars) : (Text.before? [c] s).getD s <+: s := by
    rw [before?_singleton]
    split
    · exact List.dropLast_prefix s
    · exact List.prefix_refl s
  exact (hdrop '\r' _).trans (hdrop '\n' s)

/-- Text as pieces of text: one, or none if it is empty. -/
theorem exists_dataTokens (line : Nat) (s : Chars) : ∃ pieces : List (Chars × Nat),
    dataTokens line s = pieces.map (fun p => ⟨.data p.1, p.2⟩) ∧ (pieces.map Prod.fst).flatten = s := by
  by_cases hs : s = []
  · exact ⟨[], by simp [dataTokens, hs], hs.symm⟩
  · exact ⟨[(s, line)], by simp [dataTokens, hs], by simp⟩

/-- A template loses its last line break behind a part that ends in a brace. -/
theorem tokens_append (pre : Chars) {part : Chars} (hpart : part.getLast? = some '\x7d') (post : Chars) : ∃ fuel,
    tokens (pre ++ (part ++ post)) = scanText (fuel + 2) false 1 (pre ++ (part ++ withoutLastBreak post)) := by
  have hlast : ∀ c ∈ (pre ++ part).getLast?, c ≠ '\n' ∧ c ≠ '\r' := by
    obtain ⟨init, rfl⟩ := List.getLast?_eq_some_iff.1 hpart
    simp [← List.append_assoc]
  rw [tokens, ← List.append_assoc, withoutLastBreak_append hlast, List.append_assoc]
  exact ⟨_, rfl⟩

/-- The tokens of text, a comment and text. -/
theorem tokens_comment (hpre : '\x7b' ∉ pre) (hbody : ¬ ['#', '\x7d'] <:+: body) (hpost : '\x7b' ∉ post) :
    ∃ pieces : List (Chars × Nat),
      tokens (pre ++ (Dialect.comment body ++ post)) = pieces.map (fun p => ⟨.data p.1, p.2⟩) ∧
        (pieces.map Prod.fst).flatten = pre ++ withoutLastBreak post := by
  have hpost' : '\x7b' ∉ withoutLastBreak post := fun h => hpost ((prefix_withoutLastBreak post).mem h)
  obtain ⟨fuel, htokens⟩ := tokens_append pre (Dialect.getLast?_comment body) post
  obtain ⟨line, hscan⟩ := scanText_comment hpre hbody (withoutLastBreak post) (fuel + 1) 1
  obtain ⟨before, hbefore, hpieces⟩ := exists_dataTokens 1 pre
  obtain ⟨behind, hbehind, hpieces'⟩ := exists_dataTokens line (withoutLastBreak post)
  refine ⟨before ++ behind, ?_, by rw [List.map_append, List.flatten_append, hpieces, hpieces']⟩
  rw [htokens, hscan, scanText_of_no_brace hpost', hbefore, hbehind, List.map_append]

/-- The tokens of text, a raw block and text. -/
theorem tokens_raw (hpre : '\x7b' ∉ pre) (hbody : readRaw body = none) (hpost : '\x7b' ∉ post) :
    ∃ pieces : List (Chars × Nat),
      tokens (pre ++ (Dialect.verbatim .minijinja body ++ post)) =
        pieces.map (fun p => ⟨.data p.1, p.2⟩) ∧
      (pieces.map Prod.fst).flatten = pre ++ (body ++ withoutLastBreak post) := by
  have hpost' : '\x7b' ∉ withoutLastBreak post := fun h => hpost ((prefix_withoutLastBreak post).mem h)
  obtain ⟨fuel, htokens⟩ := tokens_append pre (Dialect.getLast?_verbatim .minijinja body) post
  obtain ⟨line, line', hscan⟩ := scanText_raw hpre hbody (withoutLastBreak post) (fuel + 1) 1
  obtain ⟨before, hbefore, hpieces⟩ := exists_dataTokens 1 pre
  obtain ⟨behind, hbehind, hpieces'⟩ := exists_dataTokens line' (withoutLastBreak post)
  refine ⟨before ++ (body, line) :: behind, ?_, ?_⟩
  · rw [htokens, hscan, scanText_of_no_brace hpost', hbefore, hbehind, List.map_append, List.map_cons]
  · rw [List.map_append, List.flatten_append, List.map_cons, List.flatten_cons, hpieces, hpieces']

end ViewBridge.Template
