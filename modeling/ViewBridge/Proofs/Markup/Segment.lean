import Mathlib.Data.List.Infix
import ViewBridge.Html
import ViewBridge.Proofs.Infix
/-!
# Texts as markup and characters

The tag pattern divides a text: from left to right there are tags and comments, and characters at which none of them
starts. Where some of the tags and comments are left out, what was on both sides of them comes together. No tag starts
there that did not start before, since a `<` that starts none has no `>` behind it. But a tag that opens like a comment,
and was not closed as one, may now find its closing.

Results:
* `readMarkup_eq_some_iff`, `readMarkup_eq_none_iff`: what is found at a position.
* `textOf_segments`, `segments_textOf`: a text is its segments, and a division is the one that is found.
* `substitute_remains`: removing some of the tags and comments is removing their segments.
* `Settled.filter`, `Settled.isDivision`: what is left is divided as it was, if what opens like a comment is one.
* `Settled.readMarkup_append`: what is found in what is left where a tag or comment stands.
-/
namespace ViewBridge.Html

variable {opening closing w s t m rest : Chars} {a c : Char}

/-! ## Enclosed texts -/

/-- A text that opens in one way and closes in another one, at its end only. -/
def Enclosed (opening closing m : Chars) : Prop := ∃ inside, m = opening ++ inside ++ closing ∧ ¬ closing <:+: inside

/-- What opens in one way at the start of a text, up to the first place where it closes in another one. -/
def readEnclosed (opening closing s : Chars) : Option (Chars × Chars) := do
  let body ← Text.after? opening s
  let (inside, rest) ← Text.cut? closing body
  some (opening ++ inside ++ closing, rest)

theorem readEnclosed_eq_some_iff (ha : a ∉ w) :
    readEnclosed opening (w ++ [a]) s = some (m, rest) ↔ s = m ++ rest ∧ Enclosed opening (w ++ [a]) m := by
  constructor
  · intro h
    simp only [readEnclosed, Option.bind_eq_bind, Option.bind_eq_some_iff] at h
    obtain ⟨body, hbody, ⟨inside, rest'⟩, hcut, h⟩ := h
    obtain ⟨rfl, rfl⟩ := Prod.mk.inj (Option.some.inj h)
    obtain ⟨rfl, hinside⟩ := (Text.cut?_eq_some_iff_of_last ha).1 hcut
    exact ⟨by rw [Text.after?_eq_some_iff.1 hbody]; simp, inside, rfl, hinside⟩
  · rintro ⟨rfl, inside, rfl, hinside⟩
    have hbody : Text.after? opening (opening ++ inside ++ (w ++ [a]) ++ rest) = some (inside ++ (w ++ [a]) ++ rest) := by
      rw [Text.after?_eq_some_iff]
      simp only [List.append_assoc]
    have hcut : Text.cut? (w ++ [a]) (inside ++ (w ++ [a]) ++ rest) = some (inside, rest) :=
      (Text.cut?_eq_some_iff_of_last ha).2 ⟨rfl, hinside⟩
    rw [readEnclosed, hbody]
    simp only [Option.bind_eq_bind, Option.bind_some, hcut]

theorem readEnclosed_eq_none_iff (hclosing : closing ≠ []) :
    readEnclosed opening closing s = none ↔ ∀ body, s = opening ++ body → ¬ closing <:+: body := by
  rw [readEnclosed]
  cases hbody : Text.after? opening s with
  | none =>
    refine iff_of_true rfl fun body hs => ?_
    rw [hs, Text.after?_append] at hbody
    cases hbody
  | some body =>
    rw [Text.after?_eq_some_iff] at hbody
    subst hbody
    simp only [Option.bind_eq_bind, Option.bind_some, List.append_cancel_left_eq, forall_eq']
    rw [← Text.cut?_eq_none_iff hclosing]
    cases Text.cut? closing body <;> simp

/-! ## Tags and comments -/

/-- A comment: its closing stands at its end only. -/
def IsComment (m : Chars) : Prop := Enclosed "<!--".toList "-->".toList m

/-- A tag: anything from a `<` to the next `>`. -/
def IsTag (m : Chars) : Prop := Enclosed ['<'] ['>'] m

theorem readMarkup_eq (s : Chars) :
    readMarkup s = (readEnclosed "<!--".toList "-->".toList s).or (readEnclosed ['<'] ['>'] s) := rfl

theorem readComment_eq_some_iff :
    readEnclosed "<!--".toList "-->".toList s = some (m, rest) ↔ s = m ++ rest ∧ IsComment m :=
  readEnclosed_eq_some_iff (w := "--".toList) (a := '>') (by decide)

theorem readTag_eq_some_iff : readEnclosed ['<'] ['>'] s = some (m, rest) ↔ s = m ++ rest ∧ IsTag m :=
  readEnclosed_eq_some_iff (w := []) (a := '>') List.not_mem_nil

/-- A comment comes first; a tag is read where no comment is. -/
theorem readMarkup_eq_some_iff :
    readMarkup s = some (m, rest) ↔
      s = m ++ rest ∧ (IsComment m ∨ IsTag m ∧ readEnclosed "<!--".toList "-->".toList s = none) := by
  rw [readMarkup_eq, Option.or_eq_some_iff, readComment_eq_some_iff, readTag_eq_some_iff]
  tauto

/-- Nothing starts at a character other than `<`, or one that has no `>` behind it. -/
theorem readMarkup_eq_none_iff : readMarkup (c :: s) = none ↔ (c = '<' → '>' ∉ s) := by
  rw [readMarkup_eq, Option.or_eq_none_iff, readEnclosed_eq_none_iff (by decide), readEnclosed_eq_none_iff (by decide)]
  constructor
  · rintro ⟨-, htag⟩ rfl hmem
    exact htag s rfl ((List.singleton_infix_iff _ _).2 hmem)
  · intro h
    refine ⟨fun body hs hclosing => ?_, fun body hs hclosing => ?_⟩
    · obtain ⟨rfl, rfl⟩ := List.cons.inj hs
      exact h rfl (List.mem_append_right _ (hclosing.subset (by decide)))
    · obtain ⟨rfl, rfl⟩ := List.cons.inj hs
      exact h rfl (hclosing.subset (by decide))

theorem IsComment.opens (h : IsComment m) : "<!--".toList <+: m := by
  obtain ⟨inside, rfl, -⟩ := h
  rw [List.append_assoc]
  exact List.prefix_append _ _

theorem IsTag.exists_cons (h : IsTag m) : ∃ inside, m = '<' :: (inside ++ ['>']) ∧ '>' ∉ inside := by
  obtain ⟨inside, rfl, hinside⟩ := h
  exact ⟨inside, rfl, fun hmem => hinside ((List.singleton_infix_iff _ _).2 hmem)⟩

/-- Tags and comments start with a `<` and end with a `>`. -/
theorem exists_cons_of_mark (h : IsComment m ∨ IsTag m) : ∃ inside, m = '<' :: (inside ++ ['>']) := by
  rcases h with ⟨inside, rfl, -⟩ | h
  · exact ⟨"!--".toList ++ inside ++ "--".toList, by simp⟩
  · obtain ⟨inside, rfl, -⟩ := h.exists_cons
    exact ⟨inside, rfl⟩

theorem exists_cons_of_readMarkup (h : readMarkup s = some (m, rest)) : ∃ inside, m = '<' :: (inside ++ ['>']) :=
  exists_cons_of_mark ((readMarkup_eq_some_iff.1 h).2.imp_right And.left)

/-! ### What follows a tag or comment -/

theorem IsComment.readMarkup_append (h : IsComment m) (t : Chars) : readMarkup (m ++ t) = some (m, t) :=
  readMarkup_eq_some_iff.2 ⟨rfl, .inl h⟩

/-- A tag is read whatever follows, unless it now is the start of a comment. -/
theorem IsTag.readMarkup_append (h : IsTag m) (t : Chars) :
    readMarkup (m ++ t) = some (m, t) ∨
      ∃ m' rest, IsComment m' ∧ m ++ t = m' ++ rest ∧ readMarkup (m ++ t) = some (m', rest) := by
  cases hcomment : readEnclosed "<!--".toList "-->".toList (m ++ t) with
  | none => exact .inl (readMarkup_eq_some_iff.2 ⟨rfl, .inr ⟨h, hcomment⟩⟩)
  | some found =>
    obtain ⟨m', rest⟩ := found
    obtain ⟨heq, hm'⟩ := readComment_eq_some_iff.1 hcomment
    exact .inr ⟨m', rest, hm', heq, readMarkup_eq_some_iff.2 ⟨heq, .inl hm'⟩⟩

/-- What a tag opens with does not depend on what follows. -/
theorem IsTag.prefix_of_prefix_append (h : IsTag m) (t : Chars) (hp : "<!--".toList <+: m ++ t) :
    "<!--".toList <+: m := by
  obtain ⟨inside, rfl, -⟩ := h.exists_cons
  rw [← List.cons_append, List.append_assoc] at hp
  exact (Text.prefix_of_prefix_append_cons (c := '>') (by decide) hp).trans (List.prefix_append _ _)

/-- A tag that opens like a comment and is none has no closing of a comment behind its opening. -/
theorem IsTag.exists_of_opens (h : IsTag m) (hm : ¬ IsComment m) (hopens : "<!--".toList <+: m) :
    ∃ body, m = "<!--".toList ++ body ∧ body.getLast? = some '>' ∧ ¬ "-->".toList <:+: body := by
  obtain ⟨inside, rfl, hinside⟩ := h.exists_cons
  have hstart : "!--".toList <+: inside :=
    Text.prefix_of_prefix_append_cons (c := '>') (by decide) (List.cons_prefix_cons.1 hopens).2
  obtain ⟨body, rfl⟩ := hstart
  have hbody : '>' ∉ body := fun hmem => hinside (List.mem_append_right _ hmem)
  refine ⟨body ++ ['>'], by simp, List.getLast?_concat, fun hclosing => ?_⟩
  rcases List.infix_concat_iff.1 hclosing with hend | hclosing
  · -- the comment would have been closed at the end of the tag
    have hend : "--".toList ++ ['>'] <:+ body ++ ['>'] := hend
    obtain ⟨front, rfl⟩ := List.suffix_append_self_iff.1 hend
    exact hm ⟨front, by simp, fun hin => hbody (List.mem_append_left _ (hin.subset (by decide)))⟩
  · exact hbody (hclosing.subset (by decide))

/-- A tag that does not open like a comment is read whatever follows. -/
theorem IsTag.readMarkup_append_of_not_opens (h : IsTag m) (hm : ¬ "<!--".toList <+: m) (t : Chars) :
    readMarkup (m ++ t) = some (m, t) := by
  rcases h.readMarkup_append t with hread | ⟨m', rest, hm', heq, -⟩
  · exact hread
  · exact absurd (h.prefix_of_prefix_append t (heq ▸ hm'.opens.trans (List.prefix_append _ _))) hm

/-! ## Segments -/

/-- A piece of a text: a character, or a tag or comment. -/
inductive Segment where
  | plain (c : Char)
  | mark (m : Chars)

namespace Segment

def text : Segment → Chars
  | plain c => [c]
  | mark m => m

/-- Whether a segment is left where only some of the tags and comments are kept. -/
def remains (kept : Chars → Bool) : Segment → Bool
  | plain _ => true
  | mark m => kept m

end Segment

/-- The text that segments make. -/
def textOf (l : List Segment) : Chars := l.flatMap Segment.text

variable {l : List Segment}

@[simp] theorem textOf_nil : textOf [] = [] := rfl

@[simp] theorem textOf_plain (c : Char) (l : List Segment) : textOf (.plain c :: l) = c :: textOf l := rfl

@[simp] theorem textOf_mark (m : Chars) (l : List Segment) : textOf (.mark m :: l) = m ++ textOf l := rfl

theorem mem_textOf_of_filter {p : Segment → Bool} (h : c ∈ textOf (l.filter p)) : c ∈ textOf l := by
  obtain ⟨segment, hsegment, hc⟩ := List.mem_flatMap.1 h
  exact List.mem_flatMap.2 ⟨segment, List.mem_of_mem_filter hsegment, hc⟩

theorem infix_textOf (h : .mark m ∈ l) : m <:+: textOf l := by
  obtain ⟨front, back, rfl⟩ := List.append_of_mem h
  exact ⟨textOf front, textOf back, by simp [textOf, Segment.text]⟩

theorem length_of_readMarkup (h : readMarkup s = some (m, rest)) : rest.length < s.length := by
  obtain ⟨inside, rfl⟩ := exists_cons_of_readMarkup h
  rw [readMarkup_suffix h, List.length_append, List.length_cons]
  omega

/-- A text as the tag pattern divides it. -/
def segments (s : Chars) : List Segment :=
  match s with
  | [] => []
  | c :: cs =>
    match _h : readMarkup (c :: cs) with
    | some (m, rest) => .mark m :: segments rest
    | none => .plain c :: segments cs
termination_by s.length
decreasing_by
  · exact length_of_readMarkup _h
  · simp

@[simp] theorem segments_nil : segments [] = [] := by rw [segments]

theorem segments_of_none (h : readMarkup (c :: s) = none) : segments (c :: s) = .plain c :: segments s := by
  rw [segments]
  split <;> simp_all

theorem segments_of_some (h : readMarkup s = some (m, rest)) : segments s = .mark m :: segments rest := by
  cases s with
  | nil => exact absurd (length_of_readMarkup h) (Nat.not_lt_zero _)
  | cons c cs =>
    rw [segments]
    split <;> simp_all

/-- Segments that are found in their text. -/
inductive IsDivision : List Segment → Prop
  | nil : IsDivision []
  | plain {c : Char} {l : List Segment} (h : readMarkup (c :: textOf l) = none) (hl : IsDivision l) :
      IsDivision (.plain c :: l)
  | mark {m : Chars} {l : List Segment} (h : readMarkup (m ++ textOf l) = some (m, textOf l)) (hl : IsDivision l) :
      IsDivision (.mark m :: l)

/-- A division of a text is the one that the pattern finds. -/
theorem segments_textOf (h : IsDivision l) : segments (textOf l) = l := by
  induction h with
  | nil => exact segments_nil
  | plain h _ ih => rw [textOf_plain, segments_of_none h, ih]
  | mark h _ ih => rw [textOf_mark, segments_of_some h, ih]

/-- The segments of a text make the text, and what is found in it. -/
theorem textOf_segments_isDivision (s : Chars) : textOf (segments s) = s ∧ IsDivision (segments s) := by
  induction s using Text.reader_induction length_of_readMarkup with
  | nil => exact ⟨by rw [segments_nil, textOf_nil], by rw [segments_nil]; exact .nil⟩
  | none c cs hread ih =>
    obtain ⟨htext, hdivision⟩ := ih
    rw [segments_of_none hread, textOf_plain, htext]
    exact ⟨rfl, .plain (by rwa [htext]) hdivision⟩
  | some s m rest hread ih =>
    obtain ⟨htext, hdivision⟩ := ih
    rw [segments_of_some hread, textOf_mark, htext]
    refine ⟨(readMarkup_suffix hread).symm, .mark ?_ hdivision⟩
    rw [htext, ← readMarkup_suffix hread, hread]

@[simp] theorem textOf_segments (s : Chars) : textOf (segments s) = s := (textOf_segments_isDivision s).1

theorem isDivision_segments (s : Chars) : IsDivision (segments s) := (textOf_segments_isDivision s).2

/-! ## Removing segments -/

/-- Removing the tags and comments that are not kept. -/
theorem substitute_remains (kept : Chars → Bool) (s : Chars) :
    Text.substitute (fun t => (readMarkup t).map fun (m, rest) => (if kept m then m else [], rest)) s =
      textOf ((segments s).filter (Segment.remains kept)) := by
  induction s using Text.reader_induction length_of_readMarkup with
  | nil => rw [Text.substitute_nil, segments_nil, List.filter_nil, textOf_nil]
  | none c cs hread ih =>
    rw [Text.substitute_cons_of_none (by rw [hread]; rfl), ih, segments_of_none hread, List.filter_cons_of_pos rfl,
      textOf_plain]
  | some s m rest hread ih =>
    rw [Text.substitute_of_some (by rw [hread]; rfl) (length_of_readMarkup hread), ih, segments_of_some hread]
    cases hkept : kept m with
    | true => rw [if_pos rfl, List.filter_cons_of_pos (by exact hkept), textOf_mark]
    | false =>
      rw [if_neg Bool.false_ne_true, List.filter_cons_of_neg (by rw [Segment.remains, hkept]; simp), List.nil_append]

/-- What the segments of a text keep when some of them are removed: no tag starts at a character, and what opens like a
comment and is none has no tag or comment behind it that ends like one. -/
inductive Settled : List Segment → Prop
  | nil : Settled []
  | plain {c : Char} {l : List Segment} (h : c = '<' → '>' ∉ textOf l) (hl : Settled l) : Settled (.plain c :: l)
  | mark {m : Chars} {l : List Segment}
      (h : IsComment m ∨ IsTag m ∧ ("<!--".toList <+: m → ∀ m', .mark m' ∈ l → ¬ "-->".toList <:+: m'))
      (hl : Settled l) : Settled (.mark m :: l)

theorem IsDivision.settled (h : IsDivision l) : Settled l := by
  induction h with
  | nil => exact .nil
  | plain h _ ih => exact .plain (readMarkup_eq_none_iff.1 h) ih
  | mark h _ ih =>
    refine .mark ((readMarkup_eq_some_iff.1 h).2.imp_right fun ⟨htag, hnone⟩ => ⟨htag, ?_⟩) ih
    rintro ⟨body, rfl⟩ m' hm' hclosing
    rw [List.append_assoc, readEnclosed_eq_none_iff (by decide)] at hnone
    exact hnone _ rfl ((hclosing.trans (infix_textOf hm')).trans (List.suffix_append _ _).isInfix)

theorem Settled.filter (h : Settled l) (p : Segment → Bool) : Settled (l.filter p) := by
  induction h with
  | nil => exact .nil
  | @plain c l h _ ih =>
    rw [List.filter_cons]
    split
    · exact .plain (fun hc hmem => h hc (mem_textOf_of_filter hmem)) ih
    · exact ih
  | @mark m l h _ ih =>
    rw [List.filter_cons]
    split
    · exact .mark (h.imp_right fun ⟨htag, hm⟩ =>
        ⟨htag, fun hp m' hm' => hm hp m' (List.mem_of_mem_filter hm')⟩) ih
    · exact ih

/-- What is left is divided as it was, if what opens like a comment is one. -/
theorem Settled.isDivision (h : Settled l) (hm : ∀ m, .mark m ∈ l → IsComment m ∨ ¬ "<!--".toList <+: m) :
    IsDivision l := by
  induction h with
  | nil => exact .nil
  | plain h _ ih =>
    exact .plain (readMarkup_eq_none_iff.2 h) (ih fun m hmem => hm m (List.mem_cons_of_mem _ hmem))
  | @mark m l h _ ih =>
    refine .mark ?_ (ih fun m' hmem => hm m' (List.mem_cons_of_mem _ hmem))
    rcases hm m List.mem_cons_self with hcomment | hnot
    · exact hcomment.readMarkup_append _
    · rcases h with hcomment | ⟨htag, -⟩
      · exact hcomment.readMarkup_append _
      · exact htag.readMarkup_append_of_not_opens hnot _

/-- What is left is divided as it was, if no comment is found in it. -/
theorem Settled.isDivision_of_no_comment (h : Settled l) (hl : ∀ m, .mark m ∈ segments (textOf l) → ¬ IsComment m) :
    IsDivision l := by
  induction h with
  | nil => exact .nil
  | plain hc _ ih =>
    have hread := readMarkup_eq_none_iff.2 hc
    rw [textOf_plain, segments_of_none hread] at hl
    exact .plain hread (ih fun m hm => hl m (List.mem_cons_of_mem _ hm))
  | @mark m l hm _ ih =>
    have hread : readMarkup (m ++ textOf l) = some (m, textOf l) := by
      rcases hm with hcomment | ⟨htag, -⟩
      · exact hcomment.readMarkup_append _
      rcases htag.readMarkup_append (textOf l) with hread | ⟨m', rest, hm', -, hread⟩
      · exact hread
      · rw [textOf_mark, segments_of_some hread] at hl
        exact absurd hm' (hl m' List.mem_cons_self)
    rw [textOf_mark, segments_of_some hread] at hl
    exact .mark hread (ih fun m hm => hl m (List.mem_cons_of_mem _ hm))

/-! ### Comments that are new -/

/-- A character that no tag or comment starts with is a segment of its own. -/
theorem Settled.exists_plain (h : Settled l) (hc : c ≠ '<') (heq : textOf l = c :: t) :
    ∃ back, l = .plain c :: back ∧ Settled back ∧ textOf back = t := by
  cases h with
  | nil => cases heq
  | @plain d l _ hl =>
    obtain ⟨rfl, rfl⟩ := List.cons.inj heq
    exact ⟨l, rfl, hl, rfl⟩
  | @mark m l hm _ =>
    obtain ⟨inside, rfl⟩ := exists_cons_of_mark (hm.imp_right And.left)
    exact absurd (List.cons.inj heq).1.symm hc

/-- A new comment closes between two segments, if none of the tags and comments closes like one. -/
theorem Settled.exists_suffix (h : Settled l) (hno : ∀ m, .mark m ∈ l → ¬ "-->".toList <:+: m) (front : Chars)
    (heq : textOf l = front ++ "-->".toList ++ rest) : ∃ back, back <:+ l ∧ textOf back = rest := by
  induction h generalizing front with
  | nil => simp at heq
  | @plain c l _ hl ih =>
    cases front with
    | nil =>
      obtain ⟨l₁, rfl, hl₁, h₁⟩ := hl.exists_plain (by decide) (List.cons.inj heq).2
      obtain ⟨l₂, rfl, -, h₂⟩ := hl₁.exists_plain (by decide) h₁
      exact ⟨l₂, ⟨[_, _, _], rfl⟩, h₂⟩
    | cons d front =>
      obtain ⟨back, hback, hrest⟩ := ih (fun m hm => hno m (List.mem_cons_of_mem _ hm)) front (List.cons.inj heq).2
      exact ⟨back, hback.trans (List.suffix_cons _ _), hrest⟩
  | @mark m l hm _ ih =>
    obtain ⟨inside, rfl⟩ := exists_cons_of_mark (hm.imp_right And.left)
    obtain ⟨front', rfl, htext⟩ := Text.exists_append_of_append_eq (w := "--".toList) (a := '>') (by decide)
      (by rw [← List.cons_append, List.getLast?_concat]) (hno _ List.mem_cons_self) heq
    obtain ⟨back, hback, hrest⟩ := ih (fun m hm => hno m (List.mem_cons_of_mem _ hm)) front' htext
    exact ⟨back, hback.trans (List.suffix_cons _ _), hrest⟩

/-- Where a tag or comment stood, it is found again, or a comment that starts with it and closes further on, between
two segments. -/
theorem Settled.readMarkup_append (h : Settled (.mark m :: l)) :
    ∃ y back, readMarkup (m ++ textOf l) = some (m ++ y, textOf back) ∧ back <:+ l := by
  have hsame (hread : readMarkup (m ++ textOf l) = some (m, textOf l)) :
      ∃ y back, readMarkup (m ++ textOf l) = some (m ++ y, textOf back) ∧ back <:+ l :=
    ⟨[], l, by rw [hread, List.append_nil], List.suffix_refl l⟩
  by_cases hcomment : IsComment m
  · exact hsame (hcomment.readMarkup_append _)
  cases h with
  | mark hm hl =>
    obtain ⟨htag, hclosing⟩ := hm.resolve_left hcomment
    rcases htag.readMarkup_append (textOf l) with hread | ⟨m', rest, hm', heq, hread⟩
    · exact hsame hread
    have hopens : "<!--".toList <+: m :=
      htag.prefix_of_prefix_append (textOf l) (heq ▸ hm'.opens.trans (List.prefix_append _ _))
    obtain ⟨inside, rfl, -⟩ := hm'
    obtain ⟨body, rfl, hlast, hbody⟩ := htag.exists_of_opens hcomment hopens
    have heq : body ++ textOf l = inside ++ ("--".toList ++ ['>']) ++ rest := by
      simp only [List.append_assoc, List.append_cancel_left_eq] at heq
      rw [heq, List.append_assoc]
      rfl
    -- the comment closes behind the tag, and where no other tag or comment is
    obtain ⟨y, rfl, htext⟩ := Text.exists_append_of_append_eq (by decide) hlast hbody heq
    obtain ⟨back, hback, rfl⟩ := hl.exists_suffix (hclosing hopens) y htext
    exact ⟨y ++ "-->".toList, back, by rw [hread]; simp, hback⟩

end ViewBridge.Html
