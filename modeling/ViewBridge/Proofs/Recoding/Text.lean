import Mathlib.Data.List.TakeWhile
import ViewBridge.Proofs.Pass
import ViewBridge.Expression
/-!
# Recoding the characters that mean nothing

No reader of expressions asks for a mute character. A recoding writes other mute characters for some of
them and leaves the rest as it is, so whatever is read from a text is read from the recoded text, recoded.

Results:
* `takeWhile_text`, `dropWhile_text`, `after?_text`, `cut?_text`, `splitOn_text`: reading a text.
* `substitute_text`: substituting in a text, for readers that commute with the recoding.
* `not_mem_of_commutes`: what commutes with all recodings writes no mute character of its own.
-/
namespace ViewBridge

/-- A number in the ranges of one table is in none of another table if no two of them meet. -/
theorem Text.inRanges_of_disjoint {table table' : List (Nat × Nat)} {n : Nat}
    (h : (table.all fun r => table'.all fun r' => Nat.blt r.2 r'.1 || Nat.blt r'.2 r.1) = true)
    (hn : inRanges table n = true) : inRanges table' n = false := by
  obtain ⟨r, hrange, hn⟩ := List.any_eq_true.1 hn
  rw [inRanges, List.any_eq_false]
  intro r' hrange' hn'
  have hapart := List.all_eq_true.1 (List.all_eq_true.1 h r hrange) r' hrange'
  simp only [Bool.and_eq_true, Bool.or_eq_true, decide_eq_true_eq, Nat.blt_eq] at hn hn' hapart
  omega

/-- The characters that readers of expressions ask for or rules write, besides names, digits and blanks. -/
def spoken : Chars := "\x27\x22\\$->.![]()&|,;<+*/:=~%#".toList

/-- Whether no reader of expressions asks for a character. -/
def isMute (c : Char) : Bool :=
  !(spoken.contains c || Text.isNameChar c || Text.isBlank c || Text.isWordChar c || Text.isAnyDigit c)

/-- Whether a text has no mute character. -/
def IsSpoken (s : Chars) : Prop := ∀ c ∈ s, isMute c = false

instance (s : Chars) : Decidable (IsSpoken s) := List.decidableBAll _ s

theorem isMute_eq_true_iff {c : Char} : isMute c = true ↔
    c ∉ spoken ∧ Text.isNameChar c = false ∧ Text.isBlank c = false ∧ Text.isWordChar c = false ∧
      Text.isAnyDigit c = false := by
  simp only [isMute, Bool.not_eq_true', Bool.or_eq_false_iff, and_assoc, List.contains_eq_mem,
    decide_eq_false_iff_not]

theorem isNameStart_of_isMute {c : Char} (h : isMute c = true) : Text.isNameStart c = false := by
  have := (isMute_eq_true_iff.1 h).2.1
  simp only [Text.isNameChar, Bool.or_eq_false_iff] at this
  exact this.1

theorem ne_of_isMute {c d : Char} (h : isMute c = true) (hd : isMute d = false) : c ≠ d := by
  rintro rfl
  rw [h] at hd
  cases hd

theorem isQuote_of_isMute {c : Char} (h : isMute c = true) : Expression.isQuote c = false := by
  have hsingle := ne_of_isMute h (d := '\x27') (by decide)
  have hdouble := ne_of_isMute h (d := '\x22') (by decide)
  simp [Expression.isQuote, hsingle, hdouble]

theorem isMute_of_isNameChar {c : Char} (h : Text.isNameChar c = true) : isMute c = false := by
  simp [isMute, h]

theorem isMute_of_isQuote {c : Char} (h : Expression.isQuote c = true) : isMute c = false := by
  cases hc : isMute c with
  | false => rfl
  | true => rw [isQuote_of_isMute hc] at h; cases h

/-- The space and the marks that stand around names in tags. -/
def tagMarks : Chars :=
  [' ', '\x22', '\x27', '!', '#', '$', '%', '&', '(', ')', '*', '+', ',', '-', '.', '/', ':', ';', '<', '=', '>', '[', ']',
    '|', '~']

/-- The characters of tags: those of names, and the marks around them. -/
def isTagChar (c : Char) : Bool := Text.isNameChar c || tagMarks.contains c

/-- Tags have no mute character, and no table of characters is needed to see it. -/
theorem isMute_of_isTagChar {c : Char} (h : isTagChar c = true) : isMute c = false := by
  rw [isTagChar, Bool.or_eq_true, List.contains_iff_mem] at h
  rcases h with h | h
  · exact isMute_of_isNameChar h
  · have every : (tagMarks.all fun c => !isMute c) = true := by decide +kernel
    exact Bool.not_eq_true' _ ▸ List.all_eq_true.1 every c h

theorem isSpoken_of_tagChars {s : Chars} (h : s.all isTagChar = true) : IsSpoken s :=
  fun c hc => isMute_of_isTagChar (List.all_eq_true.1 h c hc)

theorem IsSpoken.append {s t : Chars} (hs : IsSpoken s) (ht : IsSpoken t) : IsSpoken (s ++ t) :=
  fun c hc => (List.mem_append.1 hc).elim (hs c) (ht c)

theorem IsSpoken.cons {c : Char} {s : Chars} (hc : isMute c = false) (hs : IsSpoken s) : IsSpoken (c :: s) :=
  List.forall_mem_cons.2 ⟨hc, hs⟩

/-- What is written for each character: mute ones for a mute one, or the character itself. -/
structure Recoding where
  image : Char → Chars
  image_cases : ∀ c, image c = [c] ∨ isMute c = true ∧ image c ≠ [] ∧ ∀ d ∈ image c, isMute d = true

namespace Recoding

variable (r : Recoding)

/-- A recoded text. -/
def text (s : Chars) : Chars := s.flatMap r.image

@[simp] theorem text_nil : r.text [] = [] := rfl

theorem text_cons (c : Char) (s : Chars) : r.text (c :: s) = r.image c ++ r.text s := List.flatMap_cons

@[simp] theorem text_append (s t : Chars) : r.text (s ++ t) = r.text s ++ r.text t := List.flatMap_append

theorem image_of_spoken {c : Char} (h : isMute c = false) : r.image c = [c] := by
  rcases r.image_cases c with hc | ⟨hc, -⟩
  · exact hc
  · rw [hc] at h
    cases h

theorem text_cons_of_spoken {c : Char} (h : isMute c = false) (s : Chars) :
    r.text (c :: s) = c :: r.text s := by
  rw [text_cons, r.image_of_spoken h]
  rfl

theorem image_eq_cons (c : Char) : ∃ d ds, r.image c = d :: ds ∧ isMute d = isMute c := by
  rcases r.image_cases c with hc | ⟨hmute, hne, hall⟩
  · exact ⟨c, [], hc, rfl⟩
  · obtain ⟨d, ds, hd⟩ := List.exists_cons_of_ne_nil hne
    exact ⟨d, ds, hd, by rw [hmute, hall d (by simp [hd])]⟩

theorem isMute_of_mem_image {c d : Char} (h : isMute c = true) (hd : d ∈ r.image c) : isMute d = true := by
  rcases r.image_cases c with hc | ⟨-, -, hall⟩
  · rw [hc, List.mem_singleton] at hd
    rwa [hd]
  · exact hall d hd

/-- A recoded text starts with the character that the text starts with, or both start mute. -/
theorem text_cons_cases (c : Char) (s : Chars) :
    isMute c = false ∧ r.text (c :: s) = c :: r.text s ∨
      isMute c = true ∧ ∃ d ds, r.text (c :: s) = d :: ds ∧ isMute d = true := by
  cases hc : isMute c with
  | false => exact .inl ⟨rfl, r.text_cons_of_spoken hc s⟩
  | true =>
    obtain ⟨d, ds, himage, hd⟩ := r.image_eq_cons c
    exact .inr ⟨rfl, d, ds ++ r.text s, by rw [text_cons, himage]; rfl, by rw [hd, hc]⟩

theorem text_of_isSpoken {s : Chars} (h : IsSpoken s) : r.text s = s := by
  induction s with
  | nil => rfl
  | cons c cs ih =>
    rw [r.text_cons_of_spoken (h c List.mem_cons_self), ih fun d hd => h d (List.mem_cons_of_mem c hd)]

theorem isSpoken_text_iff (s : Chars) : IsSpoken (r.text s) ↔ IsSpoken s := by
  refine ⟨fun h c hc => ?_, fun h => by rwa [r.text_of_isSpoken h]⟩
  obtain ⟨d, ds, himage, hd⟩ := r.image_eq_cons c
  rw [← hd]
  exact h d (List.mem_flatMap.2 ⟨c, hc, by simp [himage]⟩)

/-- Only a spoken text itself is recoded to it. -/
theorem text_eq_iff {w : Chars} (hw : IsSpoken w) (s : Chars) : r.text s = w ↔ s = w := by
  refine ⟨fun h => ?_, fun h => by rw [h, r.text_of_isSpoken hw]⟩
  have hs := (r.isSpoken_text_iff s).1 (h ▸ hw)
  rwa [r.text_of_isSpoken hs] at h

theorem text_eq_nil_iff (s : Chars) : r.text s = [] ↔ s = [] := by
  cases s with
  | nil => simp
  | cons c cs =>
    obtain ⟨d, ds, himage, -⟩ := r.image_eq_cons c
    simp [text_cons, himage]

theorem length_le_text (s : Chars) : s.length ≤ (r.text s).length := by
  induction s with
  | nil => exact Nat.le_refl _
  | cons c cs ih =>
    obtain ⟨d, ds, himage, -⟩ := r.image_eq_cons c
    rw [text_cons, himage, List.length_append, List.length_cons, List.length_cons]
    omega

theorem mem_text_iff {c : Char} (hc : isMute c = false) (s : Chars) : c ∈ r.text s ↔ c ∈ s := by
  induction s with
  | nil => simp
  | cons d ds ih =>
    rw [text_cons, List.mem_append, List.mem_cons, ih]
    refine or_congr_left ?_
    cases hd : isMute d with
    | false => rw [r.image_of_spoken hd, List.mem_singleton]
    | true =>
      refine iff_of_false (fun h => ?_) (ne_of_isMute hd hc).symm
      exact ne_of_isMute (r.isMute_of_mem_image hd h) hc rfl

theorem contains_text {c : Char} (hc : isMute c = false) (s : Chars) : (r.text s).contains c = s.contains c := by
  rw [Bool.eq_iff_iff, List.contains_iff_mem, List.contains_iff_mem, r.mem_text_iff hc]

/-- The recoding that reads its images backwards. -/
def reverse : Recoding where
  image c := (r.image c).reverse
  image_cases c := by
    rcases r.image_cases c with hc | ⟨hmute, hne, hall⟩
    · exact .inl (by rw [hc]; rfl)
    · exact .inr ⟨hmute, by simpa using hne, fun d hd => hall d (List.mem_reverse.1 hd)⟩

theorem reverse_text (s : Chars) : (r.text s).reverse = r.reverse.text s.reverse := by
  induction s with
  | nil => rfl
  | cons c cs ih =>
    rw [text_cons, List.reverse_append, ih, List.reverse_cons, text_append, text_cons, text_nil,
      List.append_nil]
    rfl

/-! ## Spans -/

section
variable {p : Char → Bool}

theorem any_text (hp : ∀ c, isMute c = true → p c = false) (s : Chars) : (r.text s).any p = s.any p := by
  induction s with
  | nil => rfl
  | cons c cs ih =>
    rw [text_cons, List.any_append, List.any_cons, ih]
    congr 1
    cases hc : isMute c with
    | false => simp [r.image_of_spoken hc]
    | true =>
      rw [hp c hc, List.any_eq_false]
      exact fun d hd => by simp [hp d (r.isMute_of_mem_image hc hd)]

theorem head?_any_text (hp : ∀ c, isMute c = true → p c = false) (s : Chars) :
    (r.text s).head?.any p = s.head?.any p := by
  cases s with
  | nil => rfl
  | cons c cs =>
    rcases r.text_cons_cases c cs with ⟨-, ht⟩ | ⟨hc, d, ds, ht, hd⟩
    · simp [ht]
    · simp [ht, hp c hc, hp d hd]

theorem head?_text_eq_some_iff {c : Char} (hc : isMute c = false) (s : Chars) :
    (r.text s).head? = some c ↔ s.head? = some c := by
  cases s with
  | nil => rfl
  | cons d ds =>
    rcases r.text_cons_cases d ds with ⟨-, ht⟩ | ⟨hd, e, es, ht, he⟩
    · simp [ht]
    · simp [ht, ne_of_isMute hd hc, ne_of_isMute he hc]

/-- A span of characters of one kind is recoded for itself, if what is written for a character is of its kind. -/
theorem span_text_of_image (hp : ∀ c, ∀ d ∈ r.image c, p d = p c) (s : Chars) :
    (r.text s).takeWhile p = r.text (s.takeWhile p) ∧ (r.text s).dropWhile p = r.text (s.dropWhile p) := by
  induction s with
  | nil => exact ⟨rfl, rfl⟩
  | cons c cs ih =>
    rw [List.takeWhile_cons, List.dropWhile_cons, text_cons]
    cases hc : p c with
    | true =>
      have hall : ∀ d ∈ r.image c, p d = true := fun d hd => (hp c d hd).trans hc
      rw [List.takeWhile_append_of_pos hall, List.dropWhile_append_of_pos hall, ih.1, ih.2]
      exact ⟨(r.text_cons c _).symm, rfl⟩
    | false =>
      obtain ⟨d, ds, himage, -⟩ := r.image_eq_cons c
      have hd : p d = false := (hp c d (by simp [himage])).trans hc
      simp [himage, hd, text_cons]

/-- So it is if all mute characters are of one kind. -/
theorem span_text {b : Bool} (hp : ∀ c, isMute c = true → p c = b) (s : Chars) :
    (r.text s).takeWhile p = r.text (s.takeWhile p) ∧ (r.text s).dropWhile p = r.text (s.dropWhile p) := by
  refine r.span_text_of_image (fun c d hd => ?_) s
  cases hc : isMute c with
  | false =>
    rw [r.image_of_spoken hc] at hd
    rw [List.mem_singleton.1 hd]
  | true => rw [hp c hc, hp d (r.isMute_of_mem_image hc hd)]

end

theorem isSpoken_takeWhile {p : Char → Bool} (hp : ∀ c, isMute c = true → p c = false) (s : Chars) :
    IsSpoken (s.takeWhile p) := by
  intro c hc
  cases hm : isMute c with
  | false => rfl
  | true => rw [← List.mem_takeWhile_imp hc, hp c hm]

theorem takeWhile_text {p : Char → Bool} (hp : ∀ c, isMute c = true → p c = false) (s : Chars) :
    (r.text s).takeWhile p = s.takeWhile p := by
  rw [(r.span_text hp s).1, r.text_of_isSpoken (isSpoken_takeWhile hp s)]

theorem filter_text {p : Char → Bool} (hp : ∀ c, isMute c = true → p c = true) (s : Chars) :
    (r.text s).filter p = r.text (s.filter p) := by
  induction s with
  | nil => rfl
  | cons c cs ih =>
    rw [text_cons, List.filter_append, ih, List.filter_cons]
    cases hc : isMute c with
    | false =>
      rw [r.image_of_spoken hc, List.filter_singleton]
      split <;> simp_all [text_cons_of_spoken]
    | true =>
      rw [hp c hc, List.filter_eq_self.2 fun d hd => hp d (r.isMute_of_mem_image hc hd), if_pos rfl, text_cons]

theorem dropWhile_text {p : Char → Bool} {b : Bool} (hp : ∀ c, isMute c = true → p c = b) (s : Chars) :
    (r.text s).dropWhile p = r.text (s.dropWhile p) := (r.span_text hp s).2

theorem reverse_reverse_text (s : Chars) : (r.reverse.text s).reverse = r.text s.reverse := by
  have := r.reverse_text s.reverse
  rw [List.reverse_reverse] at this
  rw [← this, List.reverse_reverse]

theorem dropEndWhile_text {p : Char → Bool} {b : Bool} (hp : ∀ c, isMute c = true → p c = b) (s : Chars) :
    Text.dropEndWhile p (r.text s) = r.text (Text.dropEndWhile p s) := by
  rw [Text.dropEndWhile, reverse_text, r.reverse.dropWhile_text hp, reverse_reverse_text]
  rfl

theorem trimWhile_text {p : Char → Bool} {b : Bool} (hp : ∀ c, isMute c = true → p c = b) (s : Chars) :
    Text.trimWhile p (r.text s) = r.text (Text.trimWhile p s) := by
  rw [Text.trimWhile, r.dropWhile_text hp, r.dropEndWhile_text hp]
  rfl

/-! ## Leads and cuts -/

/-- A character that is written for itself alone. -/
structure Fixes (c : Char) : Prop where
  image : r.image c = [c]
  only : ∀ d, c ∈ r.image d → d = c

variable {r}

theorem fixes_of_spoken {c : Char} (h : isMute c = false) : r.Fixes c where
  image := r.image_of_spoken h
  only d hd := by
    cases hm : isMute d with
    | false => exact (List.mem_singleton.1 (r.image_of_spoken hm ▸ hd)).symm
    | true => exact absurd rfl (ne_of_isMute (r.isMute_of_mem_image hm hd) h)

theorem after?_text_of_fixes {lead : Chars} (hlead : ∀ c ∈ lead, r.Fixes c) (s : Chars) :
    Text.after? lead (r.text s) = (Text.after? lead s).map r.text := by
  induction lead generalizing s with
  | nil => rfl
  | cons p ps ih =>
    have hp := hlead p List.mem_cons_self
    cases s with
    | nil => rfl
    | cons c cs =>
      by_cases hc : p = c
      · subst hc
        rw [text_cons, hp.image, List.singleton_append, Text.after?, Text.after?, if_pos rfl, if_pos rfl]
        exact ih (fun d hd => hlead d (List.mem_cons_of_mem p hd)) cs
      · obtain ⟨d, ds, himage, -⟩ := r.image_eq_cons c
        have hd : p ≠ d := fun h => hc (hp.only c (by simp [himage, h])).symm
        simp [text_cons, himage, Text.after?, hc, hd]

theorem cut?_append_of_not_mem {sep w : Chars} {d : Char} (hsep : sep.head? = some d) (hw : d ∉ w) (s : Chars) :
    Text.cut? sep (w ++ s) = (Text.cut? sep s).map fun (pre, rest) => (w ++ pre, rest) := by
  obtain ⟨ds, rfl⟩ := List.head?_eq_some_iff.1 hsep
  induction w with
  | nil => simp
  | cons c cs ih =>
    rw [List.mem_cons, not_or] at hw
    have hnone : Text.after? (d :: ds) (c :: (cs ++ s)) = none := by simp [Text.after?, hw.1]
    rw [List.cons_append, Text.cut?, hnone, ih hw.2, Option.map_map]
    rfl

theorem cut?_text_of_fixes {sep : Chars} (hne : sep ≠ []) (hsep : ∀ c ∈ sep, r.Fixes c) (s : Chars) :
    Text.cut? sep (r.text s) = (Text.cut? sep s).map fun (pre, rest) => (r.text pre, r.text rest) := by
  obtain ⟨d, ds, rfl⟩ := List.exists_cons_of_ne_nil hne
  have hd := hsep d List.mem_cons_self
  induction s with
  | nil => rfl
  | cons c cs ih =>
    by_cases hc : d = c
    · subst hc
      have hafter := after?_text_of_fixes hsep (d :: cs)
      rw [text_cons, hd.image, List.singleton_append] at hafter ⊢
      rw [Text.cut?, Text.cut?, hafter, ih]
      cases Text.after? (d :: ds) (d :: cs) with
      | some rest => rfl
      | none =>
        simp only [Option.map_none, Option.map_map]
        congr 1
        funext p
        simp [text_cons, hd.image]
    · have hnone : Text.after? (d :: ds) (c :: cs) = none := by simp [Text.after?, hc]
      rw [text_cons, cut?_append_of_not_mem rfl fun h => hc (hd.only c h).symm, ih, Text.cut?, hnone, Option.map_map,
        Option.map_map]
      rfl

variable (r)

theorem after?_text (lead : Chars) (hlead : IsSpoken lead) (s : Chars) :
    Text.after? lead (r.text s) = (Text.after? lead s).map r.text :=
  after?_text_of_fixes (fun c hc => fixes_of_spoken (hlead c hc)) s

theorem after?_of_isMute {c d : Char} {ds : Chars} (hc : isMute c = true) (hd : isMute d = false) (s : Chars) :
    Text.after? (d :: ds) (c :: s) = none := by
  simp [Text.after?, (ne_of_isMute hc hd).symm]

theorem cut?_text {sep : Chars} (hne : sep ≠ []) (hsep : IsSpoken sep) (s : Chars) :
    Text.cut? sep (r.text s) = (Text.cut? sep s).map fun (pre, rest) => (r.text pre, r.text rest) :=
  cut?_text_of_fixes hne (fun c hc => fixes_of_spoken (hsep c hc)) s

theorem splitOn_text {sep : Chars} (hne : sep ≠ []) (hsep : IsSpoken sep) (s : Chars) :
    Text.splitOn sep (r.text s) = (Text.splitOn sep s).map r.text := by
  induction hn : s.length using Nat.strongRecOn generalizing s with
  | ind n ih =>
    have hcut := r.cut?_text hne hsep s
    rw [Text.splitOn, Text.splitOn, dif_neg hne, dif_neg hne]
    cases hs : Text.cut? sep s with
    | none =>
      rw [hs] at hcut
      split <;> simp_all
    | some p =>
      obtain ⟨pre, rest⟩ := p
      have hlen := Text.cut?_rest_length hs
      have hpos := List.length_pos_iff.2 hne
      have hrest := ih rest.length (by omega) rest rfl
      rw [hs] at hcut
      split <;> simp_all

theorem join_text (sep : Chars) (hsep : IsSpoken sep) (parts : List Chars) :
    Text.join sep (parts.map r.text) = r.text (Text.join sep parts) := by
  induction parts with
  | nil => rfl
  | cons p ps ih =>
    cases ps with
    | nil => rfl
    | cons q qs =>
      rw [List.map_cons, Text.join_cons _ _ (by simp), ih, Text.join_cons sep p (List.cons_ne_nil q qs),
        text_append, text_append, r.text_of_isSpoken hsep]

/-- The first character, if it is of a kind, and what follows it. -/
def next? (p : Char → Bool) : Chars → Option (Char × Chars)
  | [] => none
  | c :: rest => if p c then some (c, rest) else none

theorem next?_eq_some {p : Char → Bool} {s rest : Chars} {c : Char} (h : next? p s = some (c, rest)) :
    p c = true ∧ s = c :: rest := by
  cases s with
  | nil => cases h
  | cons d ds =>
    simp only [next?] at h
    split at h
    · rename_i hd
      obtain ⟨rfl, rfl⟩ := Prod.mk.inj (Option.some.inj h)
      exact ⟨hd, rfl⟩
    · cases h

theorem next?_text {p : Char → Bool} (hp : ∀ c, isMute c = true → p c = false) (s : Chars) :
    next? p (r.text s) = (next? p s).map fun (c, rest) => (c, r.text rest) := by
  cases s with
  | nil => rfl
  | cons c cs =>
    rcases r.text_cons_cases c cs with ⟨-, ht⟩ | ⟨hc, d, ds, ht, hd⟩
    · rw [ht, next?, next?]
      split <;> rfl
    · simp [ht, next?, hp c hc, hp d hd]

/-- A reader that finds in a recoded text what it finds in the text, and leaves the recoded rest. -/
def Sees {α : Type} (read : Chars → Option (α × Chars)) : Prop :=
  ∀ s, read (r.text s) = (read s).map fun (a, rest) => (a, r.text rest)

variable {r}

theorem Sees.lead {α : Type} {read : Chars → Option (α × Chars)} (h : r.Sees read) {lead : Chars}
    (hlead : IsSpoken lead) : r.Sees fun s => (Text.after? lead s).bind read := by
  intro s
  simp only [r.after?_text _ hlead]
  cases Text.after? lead s with
  | none => rfl
  | some rest => exact h rest

theorem Sees.next {α : Type} {read : Char → Chars → Option (α × Chars)} {p : Char → Bool}
    (hp : ∀ c, isMute c = true → p c = false) (h : ∀ c, r.Sees (read c)) :
    r.Sees fun s => (next? p s).bind fun (c, s) => read c s := by
  intro s
  simp only [r.next?_text hp]
  cases next? p s with
  | none => rfl
  | some q => exact h q.1 q.2

theorem Sees.map {α β : Type} {read : Chars → Option (α × Chars)} (h : r.Sees read) (f : α → β) :
    r.Sees fun s => (read s).map fun (a, rest) => (f a, rest) := by
  intro s
  simp only [h s, Option.map_map]
  rfl

theorem sees_lead {α : Type} (r : Recoding) (a : α) {lead : Chars} (hlead : IsSpoken lead) :
    r.Sees fun s => (Text.after? lead s).map fun rest => (a, rest) := by
  intro s
  simp only [r.after?_text _ hlead, Option.map_map]
  rfl

theorem sees_next (r : Recoding) {p : Char → Bool} (hp : ∀ c, isMute c = true → p c = false) :
    r.Sees (next? p) := r.next?_text hp

variable (r)

/-! ## Substituting -/

/-- A reader that finds in a recoded text what it finds in the text, recoded, and reads nothing at a mute
character. -/
structure Fits (find : Chars → Option (Chars × Chars)) : Prop where
  commutes : ∀ s, find (r.text s) = (find s).map fun (out, rest) => (r.text out, r.text rest)
  mute : ∀ c s, isMute c = true → find (c :: s) = none
  uses : ∀ s out rest, find s = some (out, rest) → ∃ used, used ≠ [] ∧ s = used ++ rest

theorem substitute_text {find : Chars → Option (Chars × Chars)} (h : r.Fits find) (s : Chars) :
    Text.substitute find (r.text s) = r.text (Text.substitute find s) := by
  induction hn : s.length using Nat.strongRecOn generalizing s with
  | ind n ih =>
    cases hf : find s with
    | some p =>
      obtain ⟨out, rest⟩ := p
      obtain ⟨used, hused, rfl⟩ := h.uses s out rest hf
      have hpos := List.length_pos_iff.2 hused
      have hpos' := List.length_pos_iff.2 (mt (r.text_eq_nil_iff used).1 hused)
      have hread := h.commutes (used ++ rest)
      rw [hf, Option.map_some] at hread
      simp only [List.length_append] at hn
      rw [Text.substitute_of_some hf (by simp only [List.length_append]; omega),
        Text.substitute_of_some hread (by simp only [text_append, List.length_append]; omega),
        ih rest.length (by omega) rest rfl, text_append]
    | none =>
      cases s with
      | nil => simp
      | cons c cs =>
        simp only [List.length_cons] at hn
        rw [Text.substitute_cons_of_none hf, text_cons, text_cons, ← ih cs.length (by omega) cs rfl]
        -- nothing is read anywhere in the image of the character
        refine Text.substitute_append_of_none fun v hv hsuffix => ?_
        obtain ⟨d, ds, rfl⟩ := List.exists_cons_of_ne_nil hv
        cases hc : isMute c with
        | true => exact h.mute d _ (r.isMute_of_mem_image hc (hsuffix.mem List.mem_cons_self))
        | false =>
          rw [r.image_of_spoken hc] at hsuffix
          have hread := h.commutes (c :: cs)
          rw [hf, r.text_cons_of_spoken hc, Option.map_none] at hread
          rcases List.suffix_cons_iff.1 hsuffix with heq | hnil
          · rw [heq]
            exact hread
          · exact absurd (List.suffix_nil.1 hnil) hv

theorem fits_of_sees {find : Chars → Option (Chars × Chars)} (h : r.Sees find)
    (hmute : ∀ c s, isMute c = true → find (c :: s) = none)
    (hread : ∀ s out rest, find s = some (out, rest) → IsSpoken out ∧ ∃ used, used ≠ [] ∧ s = used ++ rest) :
    r.Fits find where
  commutes s := by
    rw [h s]
    cases hf : find s with
    | none => rfl
    | some p => simp [r.text_of_isSpoken (hread s p.1 p.2 hf).1]
  mute := hmute
  uses s out rest hf := (hread s out rest hf).2

theorem fits_exchange {old new : Chars} (hne : old ≠ []) (hold : IsSpoken old) (hnew : IsSpoken new) :
    r.Fits (Text.exchange old new) where
  commutes s := by
    rw [Text.exchange, r.after?_text _ hold, Text.exchange, Option.map_map, Option.map_map]
    simp only [Function.comp_def, r.text_of_isSpoken hnew]
  mute c s hc := by
    obtain ⟨d, ds, rfl⟩ := List.exists_cons_of_ne_nil hne
    rw [Text.exchange, after?_of_isMute hc (hold d List.mem_cons_self), Option.map_none]
  uses s out rest h := ⟨old, hne, (Text.exchange_eq_some h).2⟩

theorem replace_text {old new : Chars} (hne : old ≠ []) (hold : IsSpoken old) (hnew : IsSpoken new)
    (s : Chars) : Text.replace old new (r.text s) = r.text (Text.replace old new s) := by
  rw [Text.replace_eq_substitute _ hne, Text.replace_eq_substitute _ hne,
    r.substitute_text (r.fits_exchange hne hold hnew)]

/-! ## Writing nothing mute -/

/-- The recoding that writes a mute character for another one. -/
def swap (c d : Char) (hc : isMute c = true) (hd : isMute d = true) : Recoding where
  image e := if e = c then [d] else [e]
  image_cases e := by
    split
    · rename_i h
      exact .inr ⟨h ▸ hc, by simp, by simpa using hd⟩
    · exact .inl rfl

theorem swap_text_of_not_mem {c d : Char} (hc : isMute c = true) (hd : isMute d = true) {s : Chars}
    (h : c ∉ s) : (swap c d hc hd).text s = s := by
  induction s with
  | nil => rfl
  | cons e es ih =>
    simp only [List.mem_cons, not_or] at h
    have himage : (swap c d hc hd).image e = [e] := if_neg (Ne.symm h.1)
    rw [text_cons, ih h.2, himage]
    rfl

theorem not_mem_swap_text {c d : Char} (hc : isMute c = true) (hd : isMute d = true) (hne : c ≠ d)
    (s : Chars) : c ∉ (swap c d hc hd).text s := by
  intro hmem
  obtain ⟨e, -, he⟩ := List.mem_flatMap.1 hmem
  simp only [swap] at he
  split at he
  · exact hne (List.mem_singleton.1 he)
  · rename_i hne'
    exact hne' (List.mem_singleton.1 he).symm

/-- What every recoding keeps that keeps a text has a mute character only if the text has it. -/
theorem not_mem_of_fixed {s v : Chars} (h : ∀ r : Recoding, r.text s = s → r.text v = v) {c : Char}
    (hc : isMute c = true) (hs : c ∉ s) : c ∉ v := by
  -- any other mute character will do to see it
  obtain ⟨d, hd, hne⟩ : ∃ d, isMute d = true ∧ c ≠ d := by
    by_cases h : c = '\x7b'
    · exact ⟨'\x7d', by decide, by rw [h]; decide⟩
    · exact ⟨'\x7b', by decide, h⟩
  rw [← h _ (swap_text_of_not_mem hc hd hs)]
  exact not_mem_swap_text hc hd hne v

/-- What commutes with every recoding writes a mute character only where it reads it. -/
theorem not_mem_of_commutes {f : Chars → Chars} (hf : ∀ (r : Recoding) s, f (r.text s) = r.text (f s)) {c : Char}
    (hc : isMute c = true) {s : Chars} (hs : c ∉ s) : c ∉ f s :=
  not_mem_of_fixed (fun r hr => by rw [← hf, hr]) hc hs

end Recoding
end ViewBridge
