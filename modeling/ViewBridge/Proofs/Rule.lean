import ViewBridge.Proofs.Pass
import ViewBridge.Expression
/-!
# The rules of expressions at a quote

All rules of expressions are passes. Most of them read nothing that has a quote in it, so they stop at every
quote, whether it opens a literal, closes one or stands inside one. The two rules for dots at a quote read
over it, but what they do on one side of a quote does not depend on the other side.

Results:
* `dropSigils_eq`, `spellNot_eq`: the rules that are no passes by definition.
* `Barred.substitute_cut`: the rules that stop at quotes.
* `rewriteIn_cut`: the rules between bare keys and negation, on both sides of a quote.
* `spellLogic_cut`: the rules after negation.
-/
namespace ViewBridge.Expression

/-! ## Rules as passes -/

/-- A sigil before a name, with the first character of that name. -/
def readSigil : Chars → Option (Chars × Chars)
  | '$' :: c :: rest => if Text.isNameStart c then some ([c], rest) else none
  | _ => none

theorem readSigil_of_ne {c : Char} (hc : c ≠ '$') (s : Chars) : readSigil (c :: s) = none := by
  unfold readSigil
  split
  · rename_i h
    exact absurd (List.cons.inj h).1 hc
  · rfl

theorem dropSigils_eq (s : Chars) : dropSigils s = Text.substitute readSigil s := by
  induction hn : s.length using Nat.strongRecOn generalizing s with
  | ind n ih =>
    match s with
    | [] => simp [dropSigils]
    | [c] => simp [dropSigils, readSigil, Text.substitute_cons_of_none]
    | c :: d :: rest =>
      simp only [List.length_cons] at hn
      have htail := ih (rest.length + 1) (by omega) (d :: rest) rfl
      rw [dropSigils]
      by_cases hc : c = '$'
      · subst hc
        cases hd : Text.isNameStart d with
        | true =>
          have hfind : readSigil ('$' :: d :: rest) = some ([d], rest) := by simp [readSigil, hd]
          have hne : d ≠ '$' := by rintro rfl; simp [Text.isNameStart, Text.isLetter] at hd
          rw [Text.substitute_of_some hfind (by simp only [List.length_cons]; omega), if_pos (by simp [hd]),
            htail, Text.substitute_cons_of_none (readSigil_of_ne hne rest)]
          rfl
        | false =>
          have hfind : readSigil ('$' :: d :: rest) = none := by simp [readSigil, hd]
          rw [Text.substitute_cons_of_none hfind, if_neg (by simp [hd]), htail]
      · rw [Text.substitute_cons_of_none (readSigil_of_ne hc _), if_neg (by simp [hc]), htail]

/-- An exclamation mark that no equals sign follows. -/
def readNot : Chars → Option (Chars × Chars)
  | '!' :: rest => if rest.head? = some '=' then none else some ("not ".toList, rest)
  | _ => none

theorem spellNot_eq (s : Chars) : spellNot s = Text.substitute readNot s := by
  induction s with
  | nil => simp [spellNot]
  | cons c cs ih =>
    rw [spellNot]
    by_cases hc : c = '!' ∧ cs.head? ≠ some '='
    · obtain ⟨rfl, hne⟩ := hc
      have hfind : readNot ('!' :: cs) = some ("not ".toList, cs) := by simp [readNot, hne]
      rw [Text.substitute_of_some hfind (by simp), if_pos ⟨rfl, hne⟩, ih]
    · have hfind : readNot (c :: cs) = none := by
        unfold readNot
        split
        · rename_i rest h
          obtain ⟨rfl, rfl⟩ := List.cons.inj h
          rw [if_pos (by simpa using hc)]
        · rfl
      rw [Text.substitute_cons_of_none hfind, if_neg hc, ih]

/-- What follows a word, in any letter case. -/
def caseless? : (word s : Chars) → Option Chars
  | [], s => some s
  | _ :: _, [] => none
  | p :: ps, c :: cs => if c.toLower = p then caseless? ps cs else none

theorem caseless?_eq (word s : Chars) :
    caseless? word s =
      if Text.asciiLower (s.take word.length) = word then some (s.drop word.length) else none := by
  induction word generalizing s with
  | nil => simp [caseless?, Text.asciiLower]
  | cons p ps ih =>
    cases s with
    | nil => simp [caseless?, Text.asciiLower]
    | cons c cs =>
      rw [caseless?, ih]
      by_cases hc : c.toLower = p <;> simp [Text.asciiLower, hc]

/-- A logical word between spaces, in any letter case. -/
def readWord (word s : Chars) : Option (Chars × Chars) :=
  (Text.after? [' '] s).bind fun s => (caseless? word s).bind fun s =>
    (Text.after? [' '] s).map fun rest => (' ' :: word ++ [' '], rest)

theorem readLogicWord_eq (s : Chars) :
    readLogicWord s = (readWord "and".toList s).or (readWord "or".toList s) := by
  cases s with
  | nil => rfl
  | cons c cs =>
    by_cases hc : c = ' '
    · subst hc
      simp only [readLogicWord, readWord, Text.after?, ↓reduceIte, Option.bind_some, caseless?_eq]
      congr 1 <;> split <;> try rfl
      -- behind either word there has to be a space
      all_goals
        simp only [Option.bind_some]
        split
        · rename_i tail hd
          rw [hd]
          rfl
        · rename_i hne
          symm
          rw [Option.map_eq_none_iff, Option.eq_none_iff_forall_not_mem]
          exact fun r hr => hne r (Text.after?_eq_some_iff.1 hr)
    · simp [readLogicWord, hc, readWord, Text.after?, Ne.symm hc]

/-! ## What the rules read -/

theorem readSigil_eq_some {s out rest : Chars} (h : readSigil s = some (out, rest)) :
    ∃ c, Text.isNameStart c = true ∧ s = '$' :: c :: rest ∧ out = [c] := by
  unfold readSigil at h
  split at h
  · rename_i c tail
    split at h
    · rename_i hc
      simp only [Option.some.injEq, Prod.mk.injEq] at h
      exact ⟨c, hc, by rw [h.2], h.1.symm⟩
    · cases h
  · cases h

theorem readNot_eq_some {s out rest : Chars} (h : readNot s = some (out, rest)) :
    s = '!' :: rest ∧ out = "not ".toList := by
  unfold readNot at h
  split at h
  · split at h
    · cases h
    · simp only [Option.some.injEq, Prod.mk.injEq] at h
      exact ⟨by rw [h.2], h.1.symm⟩
  · cases h

theorem readBareKey_eq_some {s out rest : Chars} (h : readBareKey s = some (out, rest)) :
    ∃ name, (∀ c ∈ name, Text.isNameChar c = true) ∧ s = '[' :: (name ++ ']' :: rest) ∧
      out = "['".toList ++ name ++ "']".toList := by
  unfold readBareKey at h
  split at h
  · rename_i c tail
    split at h
    · rename_i hc
      split at h
      · rename_i tail' hd
        simp only [Option.some.injEq, Prod.mk.injEq] at h
        obtain ⟨rfl, rfl⟩ := h
        refine ⟨c :: tail.takeWhile Text.isNameChar, ?_, ?_, rfl⟩
        · intro d hd
          rcases List.mem_cons.1 hd with rfl | hd
          · exact Text.isNameChar_of_isNameStart hc
          · exact List.mem_takeWhile_imp hd
        · rw [List.cons_append, ← hd, List.takeWhile_append_dropWhile]
      · cases h
    · cases h
  · cases h

theorem readQuoteDot_eq_some {s out rest : Chars} (h : readQuoteDot s = some (out, rest)) :
    ∃ q c, isQuote q = true ∧ Text.isNameStart c = true ∧ s = q :: '.' :: c :: rest ∧
      out = q :: " ~ ".toList ++ [c] := by
  unfold readQuoteDot at h
  split at h
  · rename_i q c tail
    split at h
    · rename_i hc
      simp only [Option.some.injEq, Prod.mk.injEq] at h
      exact ⟨q, c, hc.1, hc.2, by rw [h.2], h.1.symm⟩
    · cases h
  · cases h

/-- The characters that a dot in front of a quote joins. -/
def joinsDot (c : Char) : Bool := Text.isNameChar c || c == ')'

theorem readDotQuote_eq_some {s out rest : Chars} (h : readDotQuote s = some (out, rest)) :
    ∃ c q, joinsDot c = true ∧ isQuote q = true ∧ s = c :: '.' :: q :: rest ∧
      out = c :: " ~ ".toList ++ [q] := by
  unfold readDotQuote at h
  split at h
  · rename_i c q tail
    split at h
    · rename_i hc
      simp only [Option.some.injEq, Prod.mk.injEq] at h
      exact ⟨c, q, by simpa [joinsDot] using hc.2, hc.1, by rw [h.2], h.1.symm⟩
    · cases h
  · cases h

theorem readSpaced_eq_some {operator word s out rest : Chars}
    (h : readSpaced operator word s = some (out, rest)) :
    out = word ∧ ∃ before behind, (∀ c ∈ before ++ behind, Text.isBlank c = true) ∧
      s = before ++ operator ++ behind ++ rest := by
  obtain ⟨r, hr, he⟩ := Option.map_eq_some_iff.1 h
  rw [Prod.mk.injEq] at he
  obtain ⟨rfl, rfl⟩ := he
  refine ⟨rfl, s.takeWhile Text.isBlank, r.takeWhile Text.isBlank, ?_, ?_⟩
  · intro c hc
    rcases List.mem_append.1 hc with hc | hc <;> exact List.mem_takeWhile_imp hc
  · rw [List.append_assoc, List.takeWhile_append_dropWhile, List.append_assoc,
      ← Text.after?_eq_some_iff.1 hr, List.takeWhile_append_dropWhile]

theorem caseless?_eq_some {word s rest : Chars} (h : caseless? word s = some rest) :
    ∃ used, s = used ++ rest ∧ used.map Char.toLower = word := by
  induction word generalizing s with
  | nil => exact ⟨[], by simpa [caseless?] using h, rfl⟩
  | cons p ps ih =>
    cases s with
    | nil => simp [caseless?] at h
    | cons c cs =>
      rw [caseless?] at h
      split at h
      · rename_i hc
        obtain ⟨used, rfl, rfl⟩ := ih h
        exact ⟨c :: used, rfl, by rw [List.map_cons, hc]⟩
      · cases h

theorem readWord_eq_some {word s out rest : Chars} (h : readWord word s = some (out, rest)) :
    out = ' ' :: word ++ [' '] ∧ ∃ used, used.map Char.toLower = word ∧ s = ' ' :: (used ++ ' ' :: rest) := by
  obtain ⟨s₁, h₁, h⟩ := Option.bind_eq_some_iff.1 h
  obtain ⟨s₂, h₂, h⟩ := Option.bind_eq_some_iff.1 h
  obtain ⟨s₃, h₃, h⟩ := Option.map_eq_some_iff.1 h
  rw [Prod.mk.injEq] at h
  obtain ⟨rfl, rfl⟩ := h
  obtain ⟨used, rfl, hused⟩ := caseless?_eq_some h₂
  refine ⟨rfl, used, hused, ?_⟩
  rw [Text.after?_eq_some_iff.1 h₁, Text.after?_eq_some_iff.1 h₃]
  rfl

/-! ## Rules that stop at quotes -/

/-- Text in which nothing has to do with quotes. -/
def Bare (s : Chars) : Prop := ∀ c ∈ s, isQuote c = false ∧ c ≠ '\\'

/-- A rule that reads and writes bare text, so that it sees nothing from a quote on. -/
structure Barred (find : Chars → Option (Chars × Chars)) : Prop where
  finds : ∀ {s out rest}, find s = some (out, rest) →
    ∃ used, s = used ++ rest ∧ used ≠ [] ∧ out ≠ [] ∧ Bare used ∧ Bare out
  seam : ∀ {q}, isQuote q = true → ∀ s t,
    find (s ++ q :: t) = (find s).map fun (out, rest) => (out, rest ++ q :: t)

namespace Barred

theorem nil {find : Chars → Option (Chars × Chars)} (h : Barred find) : find [] = none := by
  cases hf : find [] with
  | none => rfl
  | some r =>
    have hf : find [] = some (r.1, r.2) := hf
    obtain ⟨used, hs, hne, -⟩ := h.finds hf
    exact absurd (List.append_eq_nil_iff.1 hs.symm).1 hne

/-- A rule that stops at quotes works on both sides of a quote by itself. -/
theorem substitute_cut {find : Chars → Option (Chars × Chars)} (h : Barred find) {q : Char}
    (hq : isQuote q = true) (a b : Chars) :
    Text.substitute find (a ++ q :: b) = Text.substitute find a ++ q :: Text.substitute find b := by
  have hnone : find (q :: b) = none := by
    have hseam := h.seam hq [] b
    rwa [List.nil_append, h.nil] at hseam
  rw [Text.substitute_append _ fun v _ _ => h.seam hq v b, Text.substitute_cons_of_none hnone]
  intro v out rest hf
  obtain ⟨used, rfl, -⟩ := h.finds hf
  exact List.suffix_append used rest

end Barred

theorem bare_of_all {s : Chars} (h : (s.all fun c => !isQuote c && c != '\\') = true) : Bare s :=
  fun c hc => by simpa using List.all_eq_true.1 h c hc

theorem ne_of_isQuote {q c : Char} (hq : isQuote q = true) (hc : isQuote c = false) : q ≠ c :=
  fun h => by rw [h, hc] at hq; cases hq

theorem isQuote_of_nameChar {c : Char} (h : Text.isNameChar c = true) :
    isQuote c = false ∧ c ≠ '\\' := by
  constructor
  · cases hq : isQuote c with
    | false => rfl
    | true =>
      simp only [isQuote, Bool.or_eq_true, beq_iff_eq] at hq
      rcases hq with rfl | rfl <;> revert h <;> decide
  · rintro rfl
    revert h; decide

theorem isBlank_of_isQuote {q : Char} (hq : isQuote q = true) : Text.isBlank q = false := by
  simp only [isQuote, Bool.or_eq_true, beq_iff_eq] at hq
  rcases hq with rfl | rfl <;> decide

theorem isQuote_of_blank {c : Char} (h : Text.isBlank c = true) : isQuote c = false ∧ c ≠ '\\' := by
  constructor
  · cases hq : isQuote c with
    | false => rfl
    | true => rw [isBlank_of_isQuote hq] at h; cases h
  · rintro rfl
    revert h; decide

theorem Bare.append {s t : Chars} (hs : Bare s) (ht : Bare t) : Bare (s ++ t) :=
  fun c hc => (List.mem_append.1 hc).elim (hs c) (ht c)

theorem not_mem_of_bare {q : Char} {s : Chars} (hq : isQuote q = true) (hs : Bare s) : q ∉ s :=
  fun h => by rw [(hs q h).1] at hq; cases hq

theorem barred_exchange {old new : Chars} (hne : old ≠ []) (hnew : new ≠ []) (hold : Bare old)
    (hbare : Bare new) : Barred (Text.exchange old new) where
  finds {s out rest} h := by
    obtain ⟨rfl, hs⟩ := Text.exchange_eq_some h
    exact ⟨old, hs, hne, hnew, hold, hbare⟩
  seam hq s t := by
    simp only [Text.exchange, Text.after?_append_cons (not_mem_of_bare hq hold), Option.map_map]
    rfl

theorem barred_readSigil : Barred readSigil where
  finds {s out rest} h := by
    obtain ⟨c, hc, rfl, rfl⟩ := readSigil_eq_some h
    have hc' := isQuote_of_nameChar (Text.isNameChar_of_isNameStart hc)
    refine ⟨['$', c], rfl, by simp, by simp, ?_, ?_⟩ <;> intro d hd <;>
      simp only [List.mem_cons, List.not_mem_nil, or_false] at hd
    · rcases hd with rfl | rfl
      · decide
      · exact hc'
    · exact hd ▸ hc'
  seam {q} hq s t := by
    have hname : Text.isNameStart q = false := by
      cases h : Text.isNameStart q with
      | false => rfl
      | true => rw [(isQuote_of_nameChar (Text.isNameChar_of_isNameStart h)).1] at hq; cases hq
    match s with
    | [] => rw [List.nil_append, readSigil_of_ne (ne_of_isQuote hq (by decide))]; rfl
    | [c] =>
      by_cases hc : c = '$'
      · simp [hc, readSigil, hname]
      · rw [List.cons_append, readSigil_of_ne hc, readSigil_of_ne hc]; rfl
    | c :: d :: rest =>
      by_cases hc : c = '$'
      · subst hc
        simp only [List.cons_append, readSigil]
        split <;> rfl
      · rw [List.cons_append, readSigil_of_ne hc, readSigil_of_ne hc]; rfl

theorem barred_readSpaced {operator word : Chars} (hne : operator ≠ []) (hword : word ≠ [])
    (hop : Bare operator) (hbare : Bare word) : Barred (readSpaced operator word) where
  finds {s out rest} h := by
    obtain ⟨rfl, before, behind, hblank, rfl⟩ := readSpaced_eq_some h
    have hblank' : Bare (before ++ behind) := fun c hc => isQuote_of_blank (hblank c hc)
    refine ⟨before ++ operator ++ behind, rfl, by simp [hne], hword, ?_, hbare⟩
    intro c hc
    simp only [List.mem_append] at hc
    rcases hc with (hc | hc) | hc
    · exact hblank' c (List.mem_append_left _ hc)
    · exact hop c hc
    · exact hblank' c (List.mem_append_right _ hc)
  seam hq s t := by
    have hq' := isBlank_of_isQuote hq
    simp only [readSpaced, Text.dropWhile_append_cons hq',
      Text.after?_append_cons (not_mem_of_bare hq hop), Option.map_map]
    congr 1
    funext r
    simp [Text.dropWhile_append_cons hq']

theorem caseless?_append_cons {word : Chars} {q : Char} (h : q.toLower ∉ word) (s t : Chars) :
    caseless? word (s ++ q :: t) = (caseless? word s).map (· ++ q :: t) := by
  induction word generalizing s with
  | nil => rfl
  | cons p ps ih =>
    simp only [List.mem_cons, not_or] at h
    cases s with
    | nil => simp [caseless?, h.1]
    | cons c cs => simp only [List.cons_append, caseless?, ih h.2]; split <;> rfl

theorem toLower_of_isQuote {q : Char} (hq : isQuote q = true) : q.toLower = q := by
  simp only [isQuote, Bool.or_eq_true, beq_iff_eq] at hq
  rcases hq with rfl | rfl <;> rfl

theorem barred_readWord {word : Chars} (hw : Bare word) : Barred (readWord word) where
  finds {s out rest} h := by
    obtain ⟨rfl, used, hused, rfl⟩ := readWord_eq_some h
    have hbare : Bare used := by
      intro c hc
      have hlower := hw c.toLower (hused ▸ List.mem_map_of_mem hc)
      constructor
      · cases hq : isQuote c with
        | false => rfl
        | true => rw [toLower_of_isQuote hq, hq] at hlower; cases hlower.1
      · rintro rfl
        exact hlower.2 rfl
    have hspace : Bare [' '] := bare_of_all (by decide)
    exact ⟨' ' :: used ++ [' '], by simp, by simp, by simp, (hspace.append hbare).append hspace,
      (hspace.append hw).append hspace⟩
  seam {q} hq s t := by
    have hspace : q ∉ [' '] := not_mem_of_bare hq (bare_of_all (by decide))
    have hlower : q.toLower ∉ word := by
      rw [toLower_of_isQuote hq]
      exact not_mem_of_bare hq hw
    simp only [readWord, Text.after?_append_cons hspace]
    cases Text.after? [' '] s with
    | none => rfl
    | some s₁ =>
      simp only [Option.map_some, Option.bind_some, caseless?_append_cons hlower]
      cases caseless? word s₁ with
      | none => rfl
      | some s₂ =>
        simp only [Option.map_some, Option.bind_some, Text.after?_append_cons hspace, Option.map_map]
        rfl

theorem Barred.or {find find' : Chars → Option (Chars × Chars)} (h : Barred find) (h' : Barred find') :
    Barred fun s => (find s).or (find' s) where
  finds hf := by
    rcases Option.or_eq_some_iff.1 hf with hf | ⟨-, hf⟩
    · exact h.finds hf
    · exact h'.finds hf
  seam hq s t := by
    simp only [h.seam hq, h'.seam hq]
    cases find s <;> rfl

theorem barred_readLogicWord : Barred readLogicWord := by
  have hor := (barred_readWord (bare_of_all (s := "and".toList) (by decide))).or
    (barred_readWord (bare_of_all (s := "or".toList) (by decide)))
  convert hor using 1
  funext s
  exact readLogicWord_eq s

theorem spellLogic_nil : spellLogic [] = [] := by simp only [spellLogic, Text.substitute_nil]

theorem spellLogic_cut {q : Char} (hq : isQuote q = true) (a b : Chars) :
    spellLogic (a ++ q :: b) = spellLogic a ++ q :: spellLogic b := by
  have hand : Barred (readSpaced "&&".toList " and ".toList) :=
    barred_readSpaced (by decide) (by decide) (bare_of_all (by decide)) (bare_of_all (by decide))
  have hor : Barred (readSpaced "||".toList " or ".toList) :=
    barred_readSpaced (by decide) (by decide) (bare_of_all (by decide)) (bare_of_all (by decide))
  simp only [spellLogic, hand.substitute_cut hq, hor.substitute_cut hq,
    barred_readLogicWord.substitute_cut hq]

/-! ## Dots at quotes -/

/-- A joining dot directly behind a quote. -/
def readBehind : Chars → Option (Chars × Chars)
  | '.' :: c :: rest => if Text.isNameStart c then some (" ~ ".toList ++ [c], rest) else none
  | _ => none

theorem readQuoteDot_cons {q : Char} (hq : isQuote q = true) (s : Chars) :
    readQuoteDot (q :: s) = (readBehind s).map fun (out, rest) => (q :: out, rest) := by
  unfold readQuoteDot readBehind
  split
  · rename_i h
    obtain ⟨rfl, rfl⟩ := List.cons.inj h
    simp only [hq, true_and]
    split <;> rfl
  · rename_i hne
    split
    · rename_i c rest
      exact absurd rfl (hne q c rest)
    · rfl

theorem readQuoteDot_of_not_quote {c : Char} (hc : isQuote c = false) (s : Chars) :
    readQuoteDot (c :: s) = none := by
  unfold readQuoteDot
  split
  · rename_i h
    obtain ⟨rfl, rfl⟩ := List.cons.inj h
    simp [hc]
  · rfl

theorem isNameStart_of_isQuote {q : Char} (hq : isQuote q = true) : Text.isNameStart q = false := by
  cases h : Text.isNameStart q with
  | false => rfl
  | true => rw [(isQuote_of_nameChar (Text.isNameChar_of_isNameStart h)).1] at hq; cases hq

theorem readBehind_append_cons {q : Char} (hq : isQuote q = true) (s t : Chars) :
    readBehind (s ++ q :: t) = (readBehind s).map fun (out, rest) => (out, rest ++ q :: t) := by
  have hdot : q ≠ '.' := ne_of_isQuote hq (by decide)
  match s with
  | [] => simp [readBehind, hdot]
  | [c] => by_cases hc : c = '.' <;> simp [readBehind, hc, isNameStart_of_isQuote hq]
  | c :: d :: rest =>
    by_cases hc : c = '.'
    · subst hc
      simp only [List.cons_append, readBehind]
      split <;> rfl
    · simp [readBehind, hc]

theorem readBehind_eq_some {s out rest : Chars} (h : readBehind s = some (out, rest)) :
    ∃ c, Text.isNameStart c = true ∧ s = '.' :: c :: rest ∧ out = " ~ ".toList ++ [c] := by
  unfold readBehind at h
  split at h
  · rename_i c tail
    split at h
    · rename_i hc
      simp only [Option.some.injEq, Prod.mk.injEq] at h
      exact ⟨c, hc, by rw [h.2], h.1.symm⟩
    · cases h
  · cases h

/-- The rule for a dot behind a quote, on text with or without a quote in front of it. -/
def quoteDotIn (left : Bool) (s : Chars) : Chars :=
  match if left then readBehind s else none with
  | some (out, rest) => out ++ Text.substitute readQuoteDot rest
  | none => Text.substitute readQuoteDot s

theorem substitute_readQuoteDot_cons {q : Char} (hq : isQuote q = true) (s : Chars) :
    Text.substitute readQuoteDot (q :: s) = q :: quoteDotIn true s := by
  have hread := readQuoteDot_cons hq s
  unfold quoteDotIn
  rw [if_pos rfl]
  cases hf : readBehind s with
  | none =>
    rw [hf] at hread
    rw [Text.substitute_cons_of_none hread]
  | some r =>
    obtain ⟨out, rest⟩ := r
    obtain ⟨c, -, rfl, -⟩ := readBehind_eq_some hf
    rw [hf] at hread
    rw [Text.substitute_of_some hread (by simp only [List.length_cons]; omega)]
    rfl

theorem readQuoteDot_suffix {s out rest : Chars} (h : readQuoteDot s = some (out, rest)) :
    rest <:+ s := by
  unfold readQuoteDot at h
  split at h
  · rename_i q c tail
    split at h
    · simp only [Option.some.injEq, Prod.mk.injEq] at h
      exact ⟨[q, '.', c], by rw [← h.2]; rfl⟩
    · cases h
  · cases h

theorem substitute_readQuoteDot_cut {q : Char} (hq : isQuote q = true) (a b : Chars) :
    Text.substitute readQuoteDot (a ++ q :: b) =
      Text.substitute readQuoteDot a ++ q :: quoteDotIn true b := by
  rw [Text.substitute_append readQuoteDot_suffix, substitute_readQuoteDot_cons hq]
  intro v hv _
  obtain ⟨c, cs, rfl⟩ := List.exists_cons_of_ne_nil hv
  cases hc : isQuote c with
  | false => rw [List.cons_append, readQuoteDot_of_not_quote hc, readQuoteDot_of_not_quote hc]; rfl
  | true =>
    rw [List.cons_append, readQuoteDot_cons hc, readQuoteDot_cons hc, readBehind_append_cons hq,
      Option.map_map, Option.map_map]
    rfl

theorem quoteDotIn_cut (left : Bool) {q : Char} (hq : isQuote q = true) (a b : Chars) :
    quoteDotIn left (a ++ q :: b) = quoteDotIn left a ++ q :: quoteDotIn true b := by
  cases left with
  | false => exact substitute_readQuoteDot_cut hq a b
  | true =>
    have hread := readBehind_append_cons hq a b
    unfold quoteDotIn
    rw [if_pos rfl, if_pos rfl, hread]
    cases readBehind a with
    | none => exact substitute_readQuoteDot_cut hq a b
    | some r =>
      simp only [Option.map_some, substitute_readQuoteDot_cut hq]
      rw [List.append_assoc]
      rfl

/-- The rule for a dot in front of a quote, on text with or without a quote behind it. -/
def readDotQuoteIn (right : Bool) : Chars → Option (Chars × Chars)
  | [c, '.'] => if right ∧ joinsDot c then some (c :: " ~ ".toList, []) else none
  | s => readDotQuote s

/-- The pass of that rule. -/
def dotQuoteIn (right : Bool) : Chars → Chars := Text.substitute (readDotQuoteIn right)

theorem readDotQuoteIn_cons (right : Bool) (c d e : Char) (s : Chars) :
    readDotQuoteIn right (c :: d :: e :: s) =
      if d = '.' ∧ isQuote e ∧ joinsDot c then some (c :: " ~ ".toList ++ [e], s) else none := by
  by_cases hd : d = '.'
  · simp [readDotQuoteIn, readDotQuote, hd, joinsDot]
  · simp [readDotQuoteIn, readDotQuote, hd]

theorem readDotQuoteIn_pair (right : Bool) (c d : Char) :
    readDotQuoteIn right [c, d] =
      if d = '.' ∧ right ∧ joinsDot c then some (c :: " ~ ".toList, []) else none := by
  by_cases hd : d = '.'
  · simp [readDotQuoteIn, hd]
  · simp [readDotQuoteIn, readDotQuote, hd]

theorem dotQuoteIn_false (s : Chars) : dotQuoteIn false s = Text.substitute readDotQuote s := by
  have heq : readDotQuoteIn false = readDotQuote := by
    funext s
    unfold readDotQuoteIn
    split
    · rfl
    · rfl
  rw [dotQuoteIn, heq]

theorem readDotQuoteIn_of_quote (right : Bool) {q : Char} (hq : isQuote q = true) (s : Chars) :
    readDotQuoteIn right (q :: s) = none := by
  have hjoin : joinsDot q = false := by
    cases h : joinsDot q with
    | false => rfl
    | true =>
      simp only [joinsDot, Bool.or_eq_true, beq_iff_eq] at h
      rcases h with h | rfl
      · rw [(isQuote_of_nameChar h).1] at hq; cases hq
      · revert hq; decide
  match s with
  | [] => rfl
  | [d] => rw [readDotQuoteIn_pair, if_neg (by simp [hjoin])]
  | d :: e :: s => rw [readDotQuoteIn_cons, if_neg (by simp [hjoin])]

theorem dotQuoteIn_cons_of_none {right : Bool} {c : Char} {s : Chars}
    (h : readDotQuoteIn right (c :: s) = none) : dotQuoteIn right (c :: s) = c :: dotQuoteIn right s :=
  Text.substitute_cons_of_none h

theorem dotQuoteIn_cut (right : Bool) {q : Char} (hq : isQuote q = true) (a b : Chars) :
    dotQuoteIn right (a ++ q :: b) = dotQuoteIn true a ++ q :: dotQuoteIn right b := by
  have hdot : q ≠ '.' := ne_of_isQuote hq (by decide)
  have hempty : dotQuoteIn right (q :: b) = q :: dotQuoteIn right b :=
    dotQuoteIn_cons_of_none (readDotQuoteIn_of_quote right hq b)
  have hone (c : Char) : dotQuoteIn right (c :: q :: b) = c :: q :: dotQuoteIn right b := by
    rw [dotQuoteIn_cons_of_none, hempty]
    cases b with
    | nil => rw [readDotQuoteIn_pair, if_neg (by simp [hdot])]
    | cons d b => rw [readDotQuoteIn_cons, if_neg (by simp [hdot])]
  have hlast (c : Char) : dotQuoteIn true [c] = [c] := by
    rw [dotQuoteIn_cons_of_none (by rfl), dotQuoteIn, Text.substitute_nil]
  induction hn : a.length using Nat.strongRecOn generalizing a with
  | ind n ih =>
    match a with
    | [] => rw [List.nil_append, hempty, show dotQuoteIn true [] = [] from Text.substitute_nil _]; rfl
    | [c] => rw [hlast]; exact hone c
    | [c, d] =>
      by_cases hc : d = '.' ∧ joinsDot c = true
      · have hleft : readDotQuoteIn right (c :: d :: q :: b) = some (c :: " ~ ".toList ++ [q], b) := by
          rw [readDotQuoteIn_cons, if_pos ⟨hc.1, hq, hc.2⟩]
        have hright : readDotQuoteIn true [c, d] = some (c :: " ~ ".toList, []) := by
          rw [readDotQuoteIn_pair, if_pos ⟨hc.1, rfl, hc.2⟩]
        have h1 := Text.substitute_of_some hleft (by simp only [List.length_cons]; omega)
        have h2 := Text.substitute_of_some hright (by simp)
        rw [dotQuoteIn, List.cons_append, List.cons_append, List.nil_append, h1, dotQuoteIn, h2,
          Text.substitute_nil, List.append_nil, List.append_assoc]
        rfl
      · have hleft : readDotQuoteIn right (c :: d :: q :: b) = none := by
          rw [readDotQuoteIn_cons, if_neg fun h => hc ⟨h.1, h.2.2⟩]
        have hright : readDotQuoteIn true [c, d] = none := by
          rw [readDotQuoteIn_pair, if_neg fun h => hc ⟨h.1, h.2.2⟩]
        rw [List.cons_append, List.cons_append, List.nil_append, dotQuoteIn_cons_of_none hleft,
          dotQuoteIn_cons_of_none hright, hone, hlast]
        rfl
    | c :: d :: e :: rest =>
      simp only [List.length_cons] at hn
      have hread := readDotQuoteIn_cons
      by_cases hc : d = '.' ∧ isQuote e = true ∧ joinsDot c = true
      · have hleft : readDotQuoteIn right (c :: d :: e :: (rest ++ q :: b)) =
            some (c :: " ~ ".toList ++ [e], rest ++ q :: b) := by rw [hread, if_pos hc]
        have hright : readDotQuoteIn true (c :: d :: e :: rest) =
            some (c :: " ~ ".toList ++ [e], rest) := by rw [hread, if_pos hc]
        have h1 := Text.substitute_of_some hleft (by simp only [List.length_cons]; omega)
        have h2 := Text.substitute_of_some hright (by simp only [List.length_cons]; omega)
        have hrest := ih rest.length (by omega) rest rfl
        unfold dotQuoteIn at hrest ⊢
        rw [List.cons_append, List.cons_append, List.cons_append, h1, h2, hrest]
        simp only [List.append_assoc]
      · have hleft : readDotQuoteIn right (c :: d :: e :: (rest ++ q :: b)) = none := by
          rw [hread, if_neg hc]
        have hright : readDotQuoteIn true (c :: d :: e :: rest) = none := by rw [hread, if_neg hc]
        have hrest := ih (rest.length + 2) (by omega) (d :: e :: rest) rfl
        rw [List.cons_append, List.cons_append, List.cons_append, dotQuoteIn_cons_of_none hleft,
          dotQuoteIn_cons_of_none hright]
        exact congrArg (c :: ·) hrest

/-! ## The rules together -/

/-- The rules between bare keys and negation, on text that may stand between quotes. -/
def rewriteIn (left right : Bool) (s : Chars) : Chars :=
  dotQuoteIn right (quoteDotIn left (Text.replace " . ".toList " ~ ".toList (dotArrows (dropSigils s))))

theorem rewriteIn_false (s : Chars) :
    rewriteIn false false s = tildeJoins (dotArrows (dropSigils s)) := by
  rw [rewriteIn, dotQuoteIn_false]
  rfl

theorem rewriteIn_nil (left right : Bool) : rewriteIn left right [] = [] := by
  have hreplace {old : String} (new : String) (h : old.toList ≠ []) :
      Text.replace old.toList new.toList [] = [] := by
    rw [Text.replace_eq_substitute _ h, Text.substitute_nil]
  have hbehind : quoteDotIn left [] = [] := by cases left <;> exact Text.substitute_nil _
  rw [rewriteIn, dropSigils, dotArrows, hreplace _ (by decide), hreplace _ (by decide), hbehind,
    dotQuoteIn, Text.substitute_nil]

theorem rewriteIn_cut (left right : Bool) {q : Char} (hq : isQuote q = true) (a b : Chars) :
    rewriteIn left right (a ++ q :: b) = rewriteIn left true a ++ q :: rewriteIn true right b := by
  have hreplace (old new : String) (hne : old.toList ≠ []) (hnew : new.toList ≠ [])
      (hold : Bare old.toList) (hbare : Bare new.toList) (a b : Chars) :
      Text.replace old.toList new.toList (a ++ q :: b) =
        Text.replace old.toList new.toList a ++ q :: Text.replace old.toList new.toList b := by
    simp only [Text.replace_eq_substitute _ hne, (barred_exchange hne hnew hold hbare).substitute_cut hq]
  have harrow := hreplace "->" "." (by decide) (by decide)
    (bare_of_all (by decide)) (bare_of_all (by decide))
  have hdot := hreplace " . " " ~ " (by decide) (by decide)
    (bare_of_all (by decide)) (bare_of_all (by decide))
  simp only [rewriteIn, dotArrows, dropSigils_eq, barred_readSigil.substitute_cut hq, harrow, hdot,
    quoteDotIn_cut _ hq, dotQuoteIn_cut _ hq]

end ViewBridge.Expression
