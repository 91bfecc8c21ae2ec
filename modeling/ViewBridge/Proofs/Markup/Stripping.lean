import ViewBridge.Proofs.Markup.Name
import ViewBridge.Proofs.Markup.Segment
/-!
# Removing tags

Tags and comments are removed from a text, all of them or all but those in which the first name is an allowed one. The
first name need not be the one of the tag that is looked at: a comment has no name of its own, nor has a tag such as
`<1 <b>`, and then the name of a tag inside counts. So a comment that has an allowed tag in it is kept, and what is
left keeps the promise of an allow-list exactly if all that is kept has a name of its own.

Results:
* `Settled.no_tag`: in what is left without any tag or comment there is no tag.
* `stripTags_takesTagsOut`: removing all tags.
* `Settled.firstName_of_mem_segments`: what is found in what is left has an allowed first name.
* `stripTagsAllowing_marks`: removing the tags that are not allowed.
-/
namespace ViewBridge.Html

variable {s t m name allowed rest : Chars} {l : List Segment} {c : Char}

/-! ## What is removed -/

/-- Whether an allow-list keeps a tag or comment. -/
def keeps (allowed m : Chars) : Bool := (firstName m).any (tagNames allowed).contains

theorem keeps_iff : keeps allowed m = true ↔ ∃ name, NamesTag allowed name ∧ firstName m = some name := by
  simp [keeps, Option.any_eq_true, mem_tagNames_iff, and_comm]

theorem stripTags_eq (s : Chars) : stripTags s = textOf ((segments s).filter (Segment.remains fun _ => false)) :=
  substitute_remains (fun _ => false) s

theorem stripTagsAllowing_of_none (h : ∀ name, ¬ NamesTag allowed name) (s : Chars) :
    stripTagsAllowing s allowed = stripTags s := by
  have hnames : tagNames allowed = [] := List.eq_nil_iff_forall_not_mem.2 fun name hname => h name (mem_tagNames_iff.1 hname)
  simp only [stripTagsAllowing, if_pos hnames]

theorem stripTagsAllowing_eq (s allowed : Chars) :
    stripTagsAllowing s allowed = textOf ((segments s).filter (Segment.remains (keeps allowed))) := by
  by_cases hnames : tagNames allowed = []
  · have hkeeps : keeps allowed = fun _ => false := by
      funext m
      rw [keeps, hnames]
      cases firstName m <;> rfl
    simp only [stripTagsAllowing, if_pos hnames]
    rw [stripTags_eq, hkeeps]
  · simp only [stripTagsAllowing, if_neg hnames]
    exact substitute_remains (keeps allowed) s

/-! ## All tags -/

/-- The second text is the first one without some spans, each from a `<` to a `>`. -/
inductive Pruned : Chars → Chars → Prop
  | nil : Pruned [] []
  | keep {s t : Chars} (c : Char) (h : Pruned s t) : Pruned (c :: s) (c :: t)
  | remove {s t : Chars} (inside : Chars) (h : Pruned s t) : Pruned ('<' :: (inside ++ '>' :: s)) t

theorem Pruned.append_left (h : Pruned s t) (u : Chars) : Pruned (u ++ s) (u ++ t) := by
  induction u with
  | nil => exact h
  | cons c u ih => exact ih.keep c

theorem Settled.pruned (h : Settled l) (kept : Chars → Bool) :
    Pruned (textOf l) (textOf (l.filter (Segment.remains kept))) := by
  induction h with
  | nil => exact .nil
  | @plain c l _ _ ih =>
    rw [List.filter_cons_of_pos rfl]
    exact ih.keep c
  | @mark m l h _ ih =>
    rw [List.filter_cons]
    split
    · exact ih.append_left m
    · obtain ⟨inside, rfl⟩ := exists_cons_of_mark (h.imp_right And.left)
      rw [textOf_mark, List.cons_append, List.append_assoc]
      exact ih.remove inside

theorem Settled.no_tag (h : Settled l) (hl : ∀ m, .mark m ∉ l) (front inside back : Chars) :
    textOf l ≠ front ++ '<' :: (inside ++ '>' :: back) := by
  induction h generalizing front with
  | nil => simp
  | @plain c l h _ ih =>
    rw [textOf_plain]
    intro heq
    cases front with
    | nil =>
      obtain ⟨rfl, htext⟩ := List.cons.inj heq
      exact h rfl (by rw [htext]; simp)
    | cons d front => exact ih (fun m hm => hl m (List.mem_cons_of_mem _ hm)) front (List.cons.inj heq).2
  | mark => exact absurd List.mem_cons_self (hl _)

/-- A function on texts takes all tags out: it leaves no `<` with a `>` somewhere behind it, takes nothing more out of
what it left, and removes spans from a `<` to a `>` and nothing else. -/
def TakesTagsOut (f : Chars → Chars) : Prop :=
  ∀ s, (∀ front inside back, f s ≠ front ++ '<' :: (inside ++ '>' :: back)) ∧ f (f s) = f s ∧ Pruned s (f s)

theorem takesTagsOut : TakesTagsOut stripTags := by
  intro s
  have hsettled := (isDivision_segments s).settled
  have hleft := hsettled.filter (Segment.remains fun _ => false)
  have hnone : ∀ m, Segment.mark m ∉ (segments s).filter (Segment.remains fun _ => false) := fun m hm =>
    Bool.false_ne_true (List.mem_filter.1 hm).2
  rw [stripTags_eq s]
  refine ⟨hleft.no_tag hnone, ?_, ?_⟩
  · have hdivision := hleft.isDivision fun m hm => absurd hm (hnone m)
    rw [stripTags_eq, segments_textOf hdivision, List.filter_filter]
    simp only [Bool.and_self]
  · have hpruned := hsettled.pruned fun _ => false
    rwa [textOf_segments] at hpruned

/-- Removing tags takes all of them out of each text, and so does removing those that are not allowed where none is. -/
theorem stripTags_takesTagsOut :
    TakesTagsOut stripTags ∧
    ∀ allowed, (∀ name, ¬ NamesTag allowed name) → TakesTagsOut fun s => stripTagsAllowing s allowed := by
  refine ⟨takesTagsOut, fun allowed h => ?_⟩
  rw [show (fun s => stripTagsAllowing s allowed) = stripTags from funext (stripTagsAllowing_of_none h)]
  exact takesTagsOut

/-- A list without a tag that has a name. What is left of adjacent tags and comments does not join to a new tag. -/
theorem stripTags_takesTagsOut_adjacent :
    (∀ name, ¬ NamesTag "<1>".toList name) ∧
    stripTagsAllowing "<<b>i>x<!-- > -->/b>".toList "<1>".toList = "i>x/b>".toList ∧
    ∀ front inside back, stripTagsAllowing "<<b>i>x<!-- > -->/b>".toList "<1>".toList ≠
      front ++ '<' :: (inside ++ '>' :: back) := by
  have hnames : tagNames "<1>".toList = [] := by decide +kernel
  have hnone : ∀ name, ¬ NamesTag "<1>".toList name := fun name h => by
    rw [← mem_tagNames_iff, hnames] at h
    cases h
  exact ⟨hnone, by decide +kernel, (stripTags_takesTagsOut.2 _ hnone _).1⟩

/-! ## Tags that are not allowed -/

/-- A tag that has a name does not open like a comment. -/
theorem TagNamed.not_opens (h : TagNamed name m) : ¬ "<!--".toList <+: m := by
  obtain ⟨lead, c, rest, rfl, hlead, hc, -⟩ := h
  intro hp
  have hp : "!--".toList <+: lead ++ c :: rest := (List.cons_prefix_cons.1 hp).2
  cases lead with
  | nil =>
    obtain rfl : '!' = c := (List.cons_prefix_cons.1 hp).1
    exact absurd hc (by decide)
  | cons d lead =>
    obtain rfl : '!' = d := (List.cons_prefix_cons.1 hp).1
    exact absurd (hlead.isBlank_or_eq List.mem_cons_self) (by decide)

/-- A tag that has a name is no comment. -/
theorem TagNamed.not_isComment (h : TagNamed name m) : ¬ IsComment m := fun hm => h.not_opens hm.opens

/-- In what is left where all tags and comments have a first name of some kind, all that are found have one. -/
theorem Settled.firstName_of_mem_segments {F : Chars → Prop} {back : List Segment} (h : Settled l)
    (hl : ∀ m, .mark m ∈ l → ∃ name, F name ∧ firstName m = some name) (hback : back <:+ l) :
    ∀ m, .mark m ∈ segments (textOf back) → ∃ name, F name ∧ firstName m = some name := by
  -- a comment that is new ends further on, so the induction is over all ends of the list
  induction h generalizing back with
  | nil => rw [List.suffix_nil.1 hback]; simp
  | @plain c l hc hrest ih =>
    have hl' : ∀ m, .mark m ∈ l → ∃ name, F name ∧ firstName m = some name := fun m hm =>
      hl m (List.mem_cons_of_mem _ hm)
    rcases List.suffix_cons_iff.1 hback with rfl | hback
    · rw [textOf_plain, segments_of_none (readMarkup_eq_none_iff.2 hc)]
      intro m hm
      exact ih hl' (List.suffix_refl l) m (List.mem_of_ne_of_mem (by simp) hm)
    · exact ih hl' hback
  | @mark m₀ l hm₀ hrest ih =>
    have hl' : ∀ m, .mark m ∈ l → ∃ name, F name ∧ firstName m = some name := fun m hm =>
      hl m (List.mem_cons_of_mem _ hm)
    rcases List.suffix_cons_iff.1 hback with rfl | hback
    · have h : Settled (.mark m₀ :: l) := .mark hm₀ hrest
      obtain ⟨y, back, hread, hsuffix⟩ := h.readMarkup_append
      rw [textOf_mark, segments_of_some hread]
      intro m hm
      rcases List.mem_cons.1 hm with hm | hm
      · obtain rfl := Segment.mark.inj hm
        obtain ⟨name, hname, hfirst⟩ := hl m₀ List.mem_cons_self
        obtain ⟨inside, rfl⟩ := exists_cons_of_mark (hm₀.imp_right And.left)
        refine ⟨name, hname, ?_⟩
        rw [← List.cons_append] at hfirst ⊢
        rw [List.append_assoc]
        exact firstName_append hfirst y
      · exact ih hl' hsuffix m hm
    · exact ih hl' hback

/-! ### The promise of an allow-list -/

/-- What an allow-list promises of a text: the tags and comments in it are tags with a name that is allowed. -/
def Promise (allowed s : Chars) : Prop :=
  ∀ m, .mark m ∈ segments s → ¬ IsComment m ∧ ∃ name, NamesTag allowed name ∧ TagNamed name m

/-- The promise is kept if and only if all that is kept has as its own name the one that it is kept for. -/
theorem promise_iff : Promise allowed (stripTagsAllowing s allowed) ↔
    ∀ m name, .mark m ∈ segments s → NamesTag allowed name → firstName m = some name → TagNamed name m := by
  have hsettled := (isDivision_segments s).settled.filter (Segment.remains (keeps allowed))
  have hmem {m : Chars} : .mark m ∈ (segments s).filter (Segment.remains (keeps allowed)) ↔
      .mark m ∈ segments s ∧ ∃ name, NamesTag allowed name ∧ firstName m = some name := by
    rw [List.mem_filter, ← keeps_iff]
    rfl
  rw [stripTagsAllowing_eq]
  constructor
  · intro hpromise m name hm hallowed hfirst
    have hdivision := hsettled.isDivision_of_no_comment fun m hm => (hpromise m hm).1
    rw [Promise, segments_textOf hdivision] at hpromise
    obtain ⟨-, own, -, hown⟩ := hpromise m (hmem.2 ⟨hm, name, hallowed, hfirst⟩)
    rwa [Option.some.inj (hfirst.symm.trans (firstName_of_tagNamed hown))]
  · intro hown
    have hnamed : ∀ m, .mark m ∈ (segments s).filter (Segment.remains (keeps allowed)) →
        ∃ name, NamesTag allowed name ∧ TagNamed name m := fun m hm => by
      obtain ⟨hm, name, hallowed, hfirst⟩ := hmem.1 hm
      exact ⟨name, hallowed, hown m name hm hallowed hfirst⟩
    have hdivision := hsettled.isDivision fun m hm => by
      obtain ⟨name, -, hname⟩ := hnamed m hm
      exact .inr hname.not_opens
    rw [Promise, segments_textOf hdivision]
    intro m hm
    obtain ⟨name, hallowed, hname⟩ := hnamed m hm
    exact ⟨hname.not_isComment, name, hallowed, hname⟩

/-- Removing the tags that are not allowed takes tags and comments out of the text and nothing else. All that is found
in what is left has an allowed first name; but it is an allowed tag by its own name, and no comment, if and only if the
first name of all that is kept is its own. -/
theorem stripTagsAllowing_marks (s allowed : Chars) :
    textOf (segments s) = s ∧
    stripTagsAllowing s allowed = textOf ((segments s).filter (Segment.remains (keeps allowed))) ∧
    (∀ m, .mark m ∈ segments (stripTagsAllowing s allowed) → ∃ name, NamesTag allowed name ∧ firstName m = some name) ∧
    (Promise allowed (stripTagsAllowing s allowed) ↔
      ∀ m name, .mark m ∈ segments s → NamesTag allowed name → firstName m = some name → TagNamed name m) := by
  refine ⟨textOf_segments s, stripTagsAllowing_eq s allowed, ?_, promise_iff⟩
  rw [stripTagsAllowing_eq]
  refine ((isDivision_segments s).settled.filter _).firstName_of_mem_segments (fun m hm => ?_) (List.suffix_refl _)
  exact keeps_iff.1 (List.mem_filter.1 hm).2

/-- The comment has an allowed tag in it, so it is left, and the promise fails. -/
theorem stripTagsAllowing_marks_comment :
    stripTagsAllowing "<!-- <b> -->".toList "<b>".toList = "<!-- <b> -->".toList ∧
    ¬ Promise "<b>".toList (stripTagsAllowing "<!-- <b> -->".toList "<b>".toList) := by
  have hcomment : IsComment "<!-- <b> -->".toList := ⟨" <b> ".toList, by decide +kernel, by decide +kernel⟩
  have hfound : segments "<!-- <b> -->".toList = [.mark "<!-- <b> -->".toList] := by
    have hread := hcomment.readMarkup_append []
    rw [List.append_nil] at hread
    rw [segments_of_some hread, segments_nil]
  refine ⟨by decide +kernel, fun hpromise => ?_⟩
  have hown := (stripTagsAllowing_marks _ _).2.2.2.1 hpromise "<!-- <b> -->".toList "b".toList
    (by rw [hfound]; exact List.mem_cons_self) (mem_tagNames_iff.1 (by decide +kernel)) (by decide +kernel)
  exact hown.not_isComment hcomment

end ViewBridge.Html
