import Mathlib.Data.List.DropRight
import ViewBridge.Html
import ViewBridge.Proofs.Infix
/-!
# Names of tags

A tag has its name behind the `<`, or behind the `/` of a closing tag, with blanks between them at will. The names in
a text are those of all tags that start in it, wherever they start. The first of them need not be the name of the tag
that starts with the text: where that tag has no name, it is the name of a tag inside of it.

Results:
* `readTagName_eq_some_iff`: reading a name.
* `mem_tagNames_iff`: the names in a text.
* `firstName_of_tagNamed`: a tag that has a name has it as its first name.
* `firstName_append`: a text that ends a tag keeps its first name if another text follows.
-/
namespace ViewBridge.Html

variable {name s t : Chars} {c : Char}

/-! ## The name of a tag -/

/-- The characters that a name goes on with. -/
def isNamePart (c : Char) : Bool := Text.isLetter c || Text.isDigit c

/-- What stands between the `<` of a tag and its name: blanks, and the `/` of a closing tag. -/
inductive IsLead : Chars → Prop
  | opening {blanks : Chars} (h : ∀ c ∈ blanks, Text.isBlank c = true) : IsLead blanks
  | closing {before after : Chars} (hbefore : ∀ c ∈ before, Text.isBlank c = true)
      (hafter : ∀ c ∈ after, Text.isBlank c = true) : IsLead (before ++ '/' :: after)

/-- A text starts with a tag that has a name: a letter with the letters and digits behind it, in lower case. -/
def TagNamed (name s : Chars) : Prop :=
  ∃ lead c rest, s = '<' :: (lead ++ c :: rest) ∧ IsLead lead ∧ Text.isLetter c = true ∧
    name = Text.asciiLower (c :: rest.takeWhile isNamePart)

theorem isBlank_of_isLetter (h : Text.isLetter c = true) : Text.isBlank c = false := by
  simp only [Text.isLetter, Bool.or_eq_true, Bool.and_eq_true, decide_eq_true_eq, Char.le_def,
    UInt32.le_iff_toNat_le] at h
  have hrange : 65 ≤ c.toNat ∧ c.toNat ≤ 122 := by
    rcases h with ⟨hlo, hhi⟩ | ⟨hlo, hhi⟩
    · exact ⟨le_trans (by decide) hlo, hhi⟩
    · exact ⟨hlo, le_trans hhi (by decide)⟩
  simp only [Text.isBlank, Bool.or_eq_false_iff, Bool.and_eq_false_iff, decide_eq_false_iff_not, beq_eq_false_iff_ne]
  omega

theorem mem_takeWhile {p : Char → Bool} (h : c ∈ s.takeWhile p) : p c = true :=
  List.all_eq_true.1 List.all_takeWhile c h

/-- What is left in front of a name. -/
def afterLead (s : Chars) : Chars :=
  let s := s.dropWhile Text.isBlank
  ((Text.after? ['/'] s).getD s).dropWhile Text.isBlank

theorem exists_lead (s : Chars) : ∃ lead, IsLead lead ∧ s = lead ++ afterLead s := by
  have hs := List.takeWhile_append_dropWhile (p := Text.isBlank) (l := s)
  have hblank (u : Chars) : ∀ d ∈ u.takeWhile Text.isBlank, Text.isBlank d = true := fun d hd => mem_takeWhile hd
  cases hslash : Text.after? ['/'] (s.dropWhile Text.isBlank) with
  | none =>
    refine ⟨s.takeWhile Text.isBlank, .opening (hblank s), ?_⟩
    rw [afterLead, hslash, Option.getD_none, List.dropWhile_idempotent]
    exact hs.symm
  | some rest =>
    refine ⟨s.takeWhile Text.isBlank ++ '/' :: rest.takeWhile Text.isBlank, .closing (hblank s) (hblank rest), ?_⟩
    rw [afterLead, hslash, Option.getD_some, List.append_assoc, List.cons_append, List.takeWhile_append_dropWhile]
    rw [Text.after?_eq_some_iff] at hslash
    rw [← List.singleton_append, ← hslash, hs]

theorem afterLead_append (h : IsLead s) (hc : Text.isLetter c = true) (rest : Chars) :
    afterLead (s ++ c :: rest) = c :: rest := by
  have hblank := isBlank_of_isLetter hc
  have hslash : c ≠ '/' := by rintro rfl; exact absurd hc (by decide)
  cases h with
  | opening h =>
    rw [afterLead, List.dropWhile_append_of_pos h]
    simp [hblank, Text.after?, hslash.symm]
  | closing hbefore hafter =>
    have hslash (u : Chars) : Text.after? ['/'] ('/' :: u) = some u := rfl
    rw [afterLead, List.append_assoc, List.dropWhile_append_of_pos hbefore, List.cons_append,
      List.dropWhile_cons_of_neg (by decide), hslash, Option.getD_some, List.dropWhile_append_of_pos hafter,
      List.dropWhile_cons_of_neg (by rw [hblank]; exact Bool.false_ne_true)]

theorem readTagName_eq (s : Chars) :
    readTagName s = (Text.after? ['<'] s).bind fun body =>
      match afterLead body with
      | [] => none
      | c :: rest =>
        if Text.isLetter c then
          some (Text.asciiLower (c :: rest.takeWhile isNamePart), rest.dropWhile isNamePart)
        else none := rfl

theorem exists_of_readTagName {left : Chars} (h : readTagName s = some (name, left)) :
    ∃ lead c rest, s = '<' :: (lead ++ c :: rest) ∧ IsLead lead ∧ Text.isLetter c = true ∧
      name = Text.asciiLower (c :: rest.takeWhile isNamePart) ∧ left = rest.dropWhile isNamePart := by
  rw [readTagName_eq] at h
  obtain ⟨body, hbody, h⟩ := Option.bind_eq_some_iff.1 h
  obtain ⟨lead, hlead, hsplit⟩ := exists_lead body
  rw [Text.after?_eq_some_iff] at hbody
  cases hafter : afterLead body with
  | nil => rw [hafter] at h; cases h
  | cons c rest =>
    rw [hafter] at h hsplit
    simp only at h
    split at h
    · rename_i hc
      obtain ⟨rfl, rfl⟩ := Prod.mk.inj (Option.some.inj h)
      exact ⟨lead, c, rest, by rw [hbody, hsplit]; rfl, hlead, hc, rfl, rfl⟩
    · cases h

/-- Reading a name at the start of a text. -/
theorem readTagName_eq_some_iff : (∃ left, readTagName s = some (name, left)) ↔ TagNamed name s := by
  constructor
  · rintro ⟨left, h⟩
    obtain ⟨lead, c, rest, hs, hlead, hc, hname, -⟩ := exists_of_readTagName h
    exact ⟨lead, c, rest, hs, hlead, hc, hname⟩
  · rintro ⟨lead, c, rest, rfl, hlead, hc, rfl⟩
    refine ⟨rest.dropWhile isNamePart, ?_⟩
    have hbody : Text.after? ['<'] ('<' :: (lead ++ c :: rest)) = some (lead ++ c :: rest) := rfl
    rw [readTagName_eq, hbody, Option.bind_some, afterLead_append hlead hc]
    exact if_pos hc

theorem readTagName_eq_none_iff : readTagName s = none ↔ ∀ name, ¬ TagNamed name s := by
  rw [← Option.not_isSome_iff_eq_none, Option.isSome_iff_exists, not_exists, Prod.forall]
  exact forall_congr' fun name => by rw [← readTagName_eq_some_iff, not_exists]

theorem TagNamed.head? (h : TagNamed name s) : s.head? = some '<' := by
  obtain ⟨lead, c, rest, rfl, -⟩ := h
  rfl

theorem TagNamed.unique {name' : Chars} (h : TagNamed name s) (h' : TagNamed name' s) : name = name' := by
  obtain ⟨left, hread⟩ := readTagName_eq_some_iff.2 h
  obtain ⟨left', hread'⟩ := readTagName_eq_some_iff.2 h'
  exact (Prod.mk.inj (Option.some.inj (hread.symm.trans hread'))).1

theorem IsLead.isBlank_or_eq (h : IsLead s) (hc : c ∈ s) : Text.isBlank c = true ∨ c = '/' := by
  cases h with
  | opening h => exact .inl (h c hc)
  | closing hbefore hafter =>
    rw [List.mem_append, List.mem_cons] at hc
    rcases hc with hc | rfl | hc
    · exact .inl (hbefore c hc)
    · exact .inr rfl
    · exact .inl (hafter c hc)

/-- A name is read up to a place in front of the next tag. -/
theorem exists_of_readTagName_append {left : Chars} (h : readTagName s = some (name, left)) :
    ∃ front, s = '<' :: (front ++ left) ∧ '<' ∉ front := by
  obtain ⟨lead, c, rest, rfl, hlead, hc, -, rfl⟩ := exists_of_readTagName h
  refine ⟨lead ++ c :: rest.takeWhile isNamePart, by simp, ?_⟩
  simp only [List.mem_append, List.mem_cons, not_or]
  refine ⟨fun hmem => absurd (hlead.isBlank_or_eq hmem) (by decide), ?_,
    fun hmem => absurd (mem_takeWhile hmem) (by decide)⟩
  rintro rfl
  exact absurd hc (by decide)

/-! ## The names in a text -/

/-- A name that is read is added to those that have been. -/
def addName (names : List Chars) (s : Chars) : Option (Chars × List Chars × Chars) :=
  (readTagName s).map fun (name, rest) => ([], names ++ [name], rest)

theorem tagNames_eq (s : Chars) : tagNames s = (Text.substituteFrom addName [] s).2 := rfl

theorem length_of_readTagName {left : Chars} (h : readTagName s = some (name, left)) : left.length < s.length := by
  obtain ⟨front, rfl, -⟩ := exists_of_readTagName_append h
  rw [List.length_cons, List.length_append]
  omega

theorem substituteFrom_addName (names : List Chars) (s : Chars) :
    (Text.substituteFrom addName names s).2 = names ++ tagNames s := by
  rw [tagNames_eq]
  induction s using Text.reader_induction length_of_readTagName generalizing names with
  | nil => simp
  | none c cs hread ih =>
    have hnone (names : List Chars) : addName names (c :: cs) = none := by rw [addName, hread]; rfl
    rw [Text.substituteFrom_cons_of_none (hnone names), Text.substituteFrom_cons_of_none (hnone [])]
    exact ih names
  | some s name rest hread ih =>
    have hlength := length_of_readTagName hread
    have hsome (names : List Chars) : addName names s = some ([], names ++ [name], rest) := by rw [addName, hread]; rfl
    rw [Text.substituteFrom_of_some (hsome names) hlength, Text.substituteFrom_of_some (hsome []) hlength]
    simp only
    rw [ih, ih ([] ++ [name]), List.nil_append, List.append_assoc]

@[simp] theorem tagNames_nil : tagNames [] = [] := by rw [tagNames_eq, Text.substituteFrom_nil]

theorem tagNames_of_none (h : readTagName (c :: s) = none) : tagNames (c :: s) = tagNames s := by
  rw [tagNames_eq, Text.substituteFrom_cons_of_none (by rw [addName, h]; rfl), tagNames_eq]

theorem tagNames_of_some {left : Chars} (h : readTagName s = some (name, left)) :
    tagNames s = name :: tagNames left := by
  have hsome : addName [] s = some ([], [name], left) := by rw [addName, h]; rfl
  rw [tagNames_eq, Text.substituteFrom_of_some hsome (length_of_readTagName h)]
  exact substituteFrom_addName [name] left

/-- A text names a tag: one starts somewhere in it. -/
def NamesTag (s name : Chars) : Prop := ∃ t, t <:+ s ∧ TagNamed name t

theorem namesTag_cons_iff : NamesTag (c :: s) name ↔ TagNamed name (c :: s) ∨ NamesTag s name := by
  simp only [NamesTag, List.suffix_cons_iff, or_and_right, exists_or, exists_eq_left]

/-- Between a `<` and the place where its name ends no other tag starts. -/
theorem namesTag_append_iff {front : Chars} (h : '<' ∉ front) (s : Chars) :
    NamesTag (front ++ s) name ↔ NamesTag s name := by
  induction front with
  | nil => rfl
  | cons c front ih =>
    rw [List.mem_cons, not_or] at h
    rw [List.cons_append, namesTag_cons_iff, ih h.2]
    refine or_iff_right fun hnamed => h.1 ?_
    exact (Option.some.inj hnamed.head?).symm

/-- The names in a text are those of the tags that start in it. -/
theorem mem_tagNames_iff : name ∈ tagNames s ↔ NamesTag s name := by
  induction s using Text.reader_induction length_of_readTagName with
  | nil =>
    rw [tagNames_nil]
    refine iff_of_false List.not_mem_nil ?_
    rintro ⟨t, ht, hnamed⟩
    rw [List.suffix_nil.1 ht] at hnamed
    exact absurd hnamed.head? (by simp)
  | none c cs hread ih =>
    rw [tagNames_of_none hread, ih, namesTag_cons_iff, or_iff_right (readTagName_eq_none_iff.1 hread name)]
  | some s first left hread ih =>
    have hfirst : TagNamed first s := readTagName_eq_some_iff.1 ⟨left, hread⟩
    obtain ⟨front, rfl, hfront⟩ := exists_of_readTagName_append hread
    rw [tagNames_of_some hread, List.mem_cons, ih, namesTag_cons_iff, namesTag_append_iff hfront]
    exact or_congr_left ⟨fun h => h ▸ hfirst, fun h => h.unique hfirst⟩

/-! ## The first name in a text -/

/-- The first name in a text. -/
def firstName (s : Chars) : Option Chars := (tagNames s).head?

/-- A tag that has a name has it as its first name. -/
theorem firstName_of_tagNamed (h : TagNamed name s) : firstName s = some name := by
  obtain ⟨left, hread⟩ := readTagName_eq_some_iff.2 h
  rw [firstName, tagNames_of_some hread, List.head?_cons]

/-- Where a tag ends, no name is read further. -/
theorem readTagName_append_cons (s t : Chars) :
    readTagName (s ++ '>' :: t) = (readTagName s).map fun (name, left) => (name, left ++ '>' :: t) := by
  have hlead (u : Chars) : afterLead (u ++ '>' :: t) = afterLead u ++ '>' :: t := by
    simp only [afterLead]
    rw [Text.dropWhile_append_cons (by decide), Text.after?_append_cons (by decide)]
    cases Text.after? ['/'] (u.dropWhile Text.isBlank) with
    | none => exact Text.dropWhile_append_cons (by decide) _ _
    | some rest => exact Text.dropWhile_append_cons (by decide) _ _
  rw [readTagName_eq, readTagName_eq, Text.after?_append_cons (by decide)]
  cases Text.after? ['<'] s with
  | none => rfl
  | some body =>
    simp only [Option.map_some, Option.bind_some, hlead]
    cases afterLead body with
    | nil => rfl
    | cons c rest =>
      simp only [List.cons_append]
      rw [Text.takeWhile_append_cons (by decide), Text.dropWhile_append_cons (by decide)]
      split <;> rfl

/-- A text that ends a tag keeps its first name if another text follows. -/
theorem firstName_append (h : firstName (s ++ ['>']) = some name) (t : Chars) :
    firstName (s ++ '>' :: t) = some name := by
  induction s with
  | nil =>
    rw [List.nil_append, firstName, tagNames_of_none rfl, tagNames_nil] at h
    cases h
  | cons c s ih =>
    have hread (t : Chars) := readTagName_append_cons (c :: s) t
    simp only [List.cons_append] at hread h ⊢
    cases hs : readTagName (c :: s) with
    | none =>
      have hnone (t : Chars) : readTagName (c :: (s ++ '>' :: t)) = none := by rw [hread, hs]; rfl
      rw [firstName, tagNames_of_none (hnone _)] at h ⊢
      exact ih h
    | some found =>
      have hsome (t : Chars) : readTagName (c :: (s ++ '>' :: t)) = some (found.1, found.2 ++ '>' :: t) := by
        rw [hread, hs]
        rfl
      rw [firstName, tagNames_of_some (hsome _), List.head?_cons] at h ⊢
      exact h

end ViewBridge.Html
