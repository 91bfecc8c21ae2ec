import ViewBridge.Proofs.Pass
import ViewBridge.Translator.Stage
/-!
# Readers between braces

Every directive starts with an opening brace and ends with a closing one. So text without a closing brace,
added behind what is being read, changes nothing: what was found before is found again with the new text
behind it, and nothing new is found.

Results:
* `Closing.afterLead`, `Closing.span`, `Closing.map`: readers that end at a brace are put together from
  such readers.
* `tag_readEntityTag`, `tag_readBlock`, `tag_readLoop`, …: what the stages read stands between braces.
-/
namespace ViewBridge.Directive

variable {α β : Type}

/-- A reader whose finds end at a closing brace, so that a tail without one is out of its sight. -/
structure Closing (read : Chars → Option (α × Chars)) : Prop where
  ends : ∀ {s a rest}, read s = some (a, rest) → ∃ used, s = used ++ '\x7d' :: rest
  append : ∀ s t, '\x7d' ∉ t → read (s ++ t) = (read s).map fun (a, rest) => (a, rest ++ t)

namespace Closing

theorem none_of_not_mem {read : Chars → Option (α × Chars)} (h : Closing read) {t : Chars}
    (ht : '\x7d' ∉ t) : read t = none := by
  cases hr : read t with
  | none => rfl
  | some r =>
    have hr : read t = some (r.1, r.2) := hr
    obtain ⟨used, rfl⟩ := h.ends hr
    simp at ht

theorem nil {read : Chars → Option (α × Chars)} (h : Closing read) : read [] = none :=
  h.none_of_not_mem (by simp)

theorem map {read : Chars → Option (α × Chars)} (h : Closing read) (f : α → β) :
    Closing fun s => (read s).map fun (a, rest) => (f a, rest) where
  ends hr := by
    obtain ⟨r, hr, he⟩ := Option.map_eq_some_iff.1 hr
    rw [Prod.mk.injEq] at he
    exact he.2 ▸ h.ends hr
  append s t ht := by
    simp only [h.append s t ht, Option.map_map]
    rfl

theorem filter {read : Chars → Option (α × Chars)} (h : Closing read) (p : α → Bool) :
    Closing fun s => (read s).filter fun (a, _) => p a where
  ends hr := h.ends (Option.filter_eq_some_iff.1 hr).1
  append s t ht := by
    simp only [h.append s t ht]
    cases read s with
    | none => rfl
    | some r => cases hp : p r.1 <;> simp [Option.filter, hp]

theorem or {read read' : Chars → Option (α × Chars)} (h : Closing read) (h' : Closing read') :
    Closing fun s => (read s).or (read' s) where
  ends hr := by
    rcases Option.or_eq_some_iff.1 hr with hr | ⟨-, hr⟩
    · exact h.ends hr
    · exact h'.ends hr
  append s t ht := by
    simp only [h.append s t ht, h'.append s t ht]
    cases read s <;> simp

end Closing

/-! ## Leads and spans -/

/-- A lead that is read over a seam either lies in front of it or leaves a part of the tail. -/
theorem after?_append_cases (lead s t : Chars) :
    (∃ rest, Text.after? lead s = some rest ∧ Text.after? lead (s ++ t) = some (rest ++ t)) ∨
      (Text.after? lead s = none ∧ ∀ rest, Text.after? lead (s ++ t) = some rest → rest <:+ t) := by
  induction lead generalizing s with
  | nil => exact .inl ⟨s, rfl, rfl⟩
  | cons p ps ih =>
    cases s with
    | nil =>
      refine .inr ⟨rfl, fun rest h => ?_⟩
      exact ⟨p :: ps, (Text.after?_eq_some_iff.1 h).symm⟩
    | cons c cs =>
      by_cases hpc : p = c
      · simpa [Text.after?, hpc] using ih cs
      · exact .inr ⟨by simp [Text.after?, hpc], fun rest h => by simp [Text.after?, hpc] at h⟩

/-- A lead whose last character the tail does not have is read in front of the seam or not at all. -/
theorem after?_append_of_last {lead t : Chars} {c : Char} (hl : lead.getLast? = some c) (ht : c ∉ t)
    (s : Chars) : Text.after? lead (s ++ t) = (Text.after? lead s).map (· ++ t) := by
  rcases after?_append_cases lead s t with ⟨rest, h1, h2⟩ | ⟨h1, h2⟩
  · rw [h1, h2]; rfl
  · rw [h1, Option.map_none]
    cases h : Text.after? lead (s ++ t) with
    | none => rfl
    | some rest =>
      -- the lead would reach over the seam, with its last character in the tail
      obtain ⟨u, rfl⟩ := h2 rest h
      have hsplit := Text.after?_eq_some_iff.1 h
      rw [← List.append_assoc, List.append_cancel_right_eq] at hsplit
      have hu : u ≠ [] := by
        rintro rfl
        rw [List.append_nil] at hsplit
        exact absurd h1 (by rw [hsplit, Text.after?_eq_some_iff.2 (List.append_nil lead).symm]; simp)
      rw [← hsplit, List.getLast?_append_of_ne_nil _ hu] at hl
      exact absurd (List.mem_append_left rest (List.mem_of_getLast? hl)) ht

theorem cut?_append_of_last {sep t : Chars} {c : Char} (hl : sep.getLast? = some c) (ht : c ∉ t)
    (s : Chars) :
    Text.cut? sep (s ++ t) = (Text.cut? sep s).map fun (pre, rest) => (pre, rest ++ t) := by
  have hne : sep ≠ [] := by rintro rfl; simp at hl
  induction s with
  | nil =>
    have hnone : ∀ v, v <:+ t → Text.cut? sep v = none := by
      intro v
      induction v with
      | nil => intro _; simp [Text.cut?, hne]
      | cons d ds ih =>
        intro hv
        have hlead := after?_append_of_last hl (fun h => ht (hv.mem h)) []
        have hempty : Text.after? sep [] = none := by cases sep <;> simp_all [Text.after?]
        rw [List.nil_append, hempty] at hlead
        simp [Text.cut?, hlead, ih ((List.suffix_cons d ds).trans hv)]
    simp [hnone t (List.suffix_refl t), Text.cut?, hne]
  | cons d ds ih =>
    have hlead := after?_append_of_last hl ht (d :: ds)
    rw [List.cons_append] at hlead ⊢
    rw [Text.cut?, Text.cut?, hlead]
    cases Text.after? sep (d :: ds) with
    | some rest => rfl
    | none =>
      simp only [Option.map_none, ih, Option.map_map]
      rfl

namespace Closing

theorem lead {lead : Chars} (a : α) (hl : lead.getLast? = some '\x7d') :
    Closing fun s => (Text.after? lead s).map fun rest => (a, rest) where
  ends hr := by
    obtain ⟨rest, hr, he⟩ := Option.map_eq_some_iff.1 hr
    rw [Prod.mk.injEq] at he
    obtain ⟨used, rfl⟩ := List.getLast?_eq_some_iff.1 hl
    exact ⟨used, by rw [Text.after?_eq_some_iff.1 hr, he.2, List.append_assoc]; rfl⟩
  append s t ht := by
    simp only [after?_append_of_last hl ht, Option.map_map]
    rfl

theorem cut {sep : Chars} (hl : sep.getLast? = some '\x7d') : Closing (Text.cut? sep) where
  ends {s pre rest} hr := by
    obtain ⟨used, rfl⟩ := List.getLast?_eq_some_iff.1 hl
    exact ⟨pre ++ used, by rw [Text.cut?_eq_some hr]; simp⟩
  append s t ht := cut?_append_of_last hl ht s

theorem afterLead {read : Chars → Option (α × Chars)} (h : Closing read) (lead : Chars) :
    Closing fun s => (Text.after? lead s).bind read where
  ends hr := by
    obtain ⟨s', hs, hr⟩ := Option.bind_eq_some_iff.1 hr
    obtain ⟨used, rfl⟩ := h.ends hr
    exact ⟨lead ++ used, by rw [Text.after?_eq_some_iff.1 hs, List.append_assoc]⟩
  append s t ht := by
    rcases after?_append_cases lead s t with ⟨rest, h1, h2⟩ | ⟨h1, h2⟩
    · simp [h1, h2, h.append rest t ht]
    · cases h3 : Text.after? lead (s ++ t) with
      | none => simp [h1]
      | some rest => simp [h1, h.none_of_not_mem fun hm => ht ((h2 rest h3).mem hm)]

/-- Reading on after a span: what is made of the span and of the rest may also be refused. -/
theorem span {read : Chars → Option (α × Chars)} (h : Closing read) (p : Char → Bool)
    (f : Chars → α → Option β) :
    Closing fun s => (read (s.dropWhile p)).bind fun (a, rest) =>
      (f (s.takeWhile p) a).map fun b => (b, rest) where
  ends {s b rest} hr := by
    obtain ⟨r, hr, he⟩ := Option.bind_eq_some_iff.1 hr
    obtain ⟨b', -, he⟩ := Option.map_eq_some_iff.1 he
    obtain ⟨used, hu⟩ := h.ends hr
    rw [Prod.mk.injEq] at he
    exact ⟨s.takeWhile p ++ used, by
      rw [List.append_assoc, ← he.2, ← hu, List.takeWhile_append_dropWhile]⟩
  append s t ht := by
    by_cases hs : s.dropWhile p = []
    · have hall : ∀ c ∈ s, p c = true := List.dropWhile_eq_nil_iff.1 hs
      have hdrop : (s ++ t).dropWhile p = t.dropWhile p := by
        rw [List.dropWhile_append_of_pos hall]
      have hsub : '\x7d' ∉ t.dropWhile p := fun hm => ht ((List.dropWhile_suffix p).mem hm)
      simp [hdrop, hs, h.nil, h.none_of_not_mem hsub]
    · simp only [Text.dropWhile_append_of_ne_nil hs, Text.takeWhile_append_of_ne_nil hs,
        h.append _ t ht]
      cases read (s.dropWhile p) with
      | none => rfl
      | some r => simp [Function.comp_def]

end Closing

/-! ## The readers of the stages -/

/-- A reader of tags: what it finds also starts with an opening brace. -/
structure Tag (read : Chars → Option (α × Chars)) : Prop extends Closing read where
  opens : ∀ {s a rest}, read s = some (a, rest) → s.head? = some '\x7b'

namespace Tag

theorem map {read : Chars → Option (α × Chars)} (h : Tag read) (f : α → β) :
    Tag fun s => (read s).map fun (a, rest) => (f a, rest) where
  toClosing := h.toClosing.map f
  opens hr := by
    obtain ⟨r, hr, -⟩ := Option.map_eq_some_iff.1 hr
    exact h.opens hr

theorem filter {read : Chars → Option (α × Chars)} (h : Tag read) (p : α → Bool) :
    Tag fun s => (read s).filter fun (a, _) => p a where
  toClosing := h.toClosing.filter p
  opens hr := h.opens (Option.filter_eq_some_iff.1 hr).1

theorem or {read read' : Chars → Option (α × Chars)} (h : Tag read) (h' : Tag read') :
    Tag fun s => (read s).or (read' s) where
  toClosing := h.toClosing.or h'.toClosing
  opens hr := by
    rcases Option.or_eq_some_iff.1 hr with hr | ⟨-, hr⟩
    · exact h.opens hr
    · exact h'.opens hr

theorem none_of_head {read : Chars → Option (α × Chars)} (h : Tag read) {c : Char} (hc : c ≠ '\x7b')
    (s : Chars) : read (c :: s) = none := by
  cases hr : read (c :: s) with
  | none => rfl
  | some r =>
    have hr : read (c :: s) = some (r.1, r.2) := hr
    exact absurd (Option.some.inj (h.opens hr)) hc

end Tag

theorem head?_of_after? {lead s rest : Chars} {c : Char} (hl : lead.head? = some c)
    (h : Text.after? lead s = some rest) : s.head? = some c := by
  obtain ⟨tail, rfl⟩ := List.head?_eq_some_iff.1 hl
  rw [Text.after?_eq_some_iff.1 h]; rfl

theorem Closing.tag {read : Chars → Option (α × Chars)} (h : Closing read) (lead : Chars)
    (hl : lead.head? = some '\x7b') : Tag fun s => (Text.after? lead s).bind read where
  toClosing := h.afterLead lead
  opens hr := by
    obtain ⟨s', hs, -⟩ := Option.bind_eq_some_iff.1 hr
    exact head?_of_after? hl hs

/-- A fixed text between braces. -/
theorem tag_lead {lead : Chars} (a : α) (ho : lead.head? = some '\x7b')
    (hc : lead.getLast? = some '\x7d') :
    Tag fun s => (Text.after? lead s).map fun rest => (a, rest) where
  toClosing := Closing.lead a hc
  opens hr := by
    obtain ⟨s', hs, -⟩ := Option.map_eq_some_iff.1 hr
    exact head?_of_after? ho hs

theorem tag_readBlock {opening closing : Chars} (ho : opening.head? = some '\x7b')
    (hc : closing.getLast? = some '\x7d') : Tag (readBlock opening closing) :=
  (Closing.cut hc).tag opening ho

theorem tag_readArgument {opening : Chars} (ho : opening.head? = some '\x7b') :
    Tag (readArgument opening) := by
  have hlead : Closing fun s => (Text.after? "\x22\x7d".toList s).map fun rest => ((), rest) :=
    Closing.lead () rfl
  have hspan := (hlead.span (· != '\x22') fun body _ => some body).tag opening ho
  have heq : readArgument opening = fun s => (Text.after? opening s).bind fun s =>
      ((Text.after? "\x22\x7d".toList (s.dropWhile (· != '\x22'))).map fun rest => ((), rest)).bind
        fun (_, rest) => (some (s.takeWhile (· != '\x22'))).map fun b => (b, rest) := by
    funext s
    simp only [readArgument, Option.bind_eq_bind, Option.pure_def, Option.map_some]
    congr 1
    funext s
    cases Text.after? "\x22\x7d".toList (s.dropWhile (· != '\x22')) <;> rfl
  rw [heq]
  exact hspan

theorem closing_readEntityBody : Closing readEntityBody where
  ends {s a rest} hr := by
    cases s with
    | nil => simp [readEntityBody] at hr
    | cons c cs =>
      simp only [readEntityBody] at hr
      split at hr
      · simp at hr
      · obtain ⟨r, hc, he⟩ := Option.bind_eq_some_iff.1 hr
        obtain ⟨used, hu⟩ := (Closing.cut rfl).ends hc
        split at he
        · simp at he
        · rw [Option.some.injEq, Prod.mk.injEq] at he
          exact ⟨c :: used, by rw [hu, he.2]; rfl⟩
  append s t ht := by
    have hcut : Closing (Text.cut? "&quot;\x7d".toList) := Closing.cut rfl
    cases s with
    | nil =>
      cases t with
      | nil => rfl
      | cons c cs =>
        have hnone := hcut.none_of_not_mem fun h => ht (List.mem_cons_of_mem c h)
        simp only [List.nil_append, readEntityBody, hnone, Option.bind_none, ite_self, Option.map_none]
    | cons c cs =>
      simp only [readEntityBody, List.cons_append]
      split
      · rfl
      · rw [hcut.append cs t ht]
        cases Text.cut? "&quot;\x7d".toList cs with
        | none => rfl
        | some r =>
          simp only [Option.map_some, Option.bind_some]
          split <;> rfl

theorem readEntityBody_eq_some {s body rest : Chars} (h : readEntityBody s = some (body, rest)) :
    s = body ++ "&quot;\x7d".toList ++ rest := by
  cases s with
  | nil => cases h
  | cons c cs =>
    simp only [readEntityBody] at h
    split at h
    · cases h
    · obtain ⟨r, hc, h⟩ := Option.bind_eq_some_iff.1 h
      split at h
      · cases h
      · rw [Option.some.injEq, Prod.mk.injEq] at h
        obtain ⟨rfl, rfl⟩ := h
        rw [Text.cut?_eq_some hc]
        rfl

/-- What a tag with entity quotes is made of. -/
theorem readEntityTag_eq_some {s name body rest : Chars}
    (h : readEntityTag s = some ((name, body), rest)) :
    s = '\x7b' :: name ++ "=&quot;".toList ++ body ++ "&quot;\x7d".toList ++ rest := by
  simp only [readEntityTag, Option.bind_eq_bind, Option.pure_def] at h
  obtain ⟨s₁, h₁, h⟩ := Option.bind_eq_some_iff.1 h
  split at h
  · cases h
  · obtain ⟨s₂, h₂, h⟩ := Option.bind_eq_some_iff.1 h
    obtain ⟨r, h₃, h⟩ := Option.bind_eq_some_iff.1 h
    simp only [Option.some.injEq, Prod.mk.injEq] at h
    obtain ⟨⟨hname, rfl⟩, rfl⟩ := h
    have hspan := List.takeWhile_append_dropWhile (p := fun c => decide ('a' ≤ c ∧ c ≤ 'z')) (l := s₁)
    rw [hname, Text.after?_eq_some_iff.1 h₂, readEntityBody_eq_some h₃] at hspan
    rw [Text.after?_eq_some_iff.1 h₁, ← hspan]
    simp only [List.append_assoc]
    rfl

theorem tag_readEntityTag : Tag readEntityTag := by
  have hbody := closing_readEntityBody.afterLead "=&quot;".toList
  have hspan := (hbody.span (fun c => decide ('a' ≤ c ∧ c ≤ 'z')) fun name body =>
    if name = [] then none else some (name, body)).tag "\x7b".toList rfl
  have heq : readEntityTag = fun s => (Text.after? "\x7b".toList s).bind fun s =>
      ((Text.after? "=&quot;".toList (s.dropWhile fun c => decide ('a' ≤ c ∧ c ≤ 'z'))).bind
        readEntityBody).bind fun (body, rest) =>
          (if s.takeWhile (fun c => decide ('a' ≤ c ∧ c ≤ 'z')) = [] then none
            else some (s.takeWhile fun c => decide ('a' ≤ c ∧ c ≤ 'z'), body)).map
              fun b => (b, rest) := by
    funext s
    simp only [readEntityTag, Option.bind_eq_bind, Option.pure_def]
    congr 1
    funext s
    by_cases hname : s.takeWhile (fun c => decide ('a' ≤ c ∧ c ≤ 'z')) = []
    · simp only [hname, ↓reduceIte, Option.map_none, Option.bind_fun_none]
    · simp only [hname, ↓reduceIte, Option.map_some, Option.bind_assoc]
  rw [heq]
  exact hspan

theorem readArgument_eq_some {opening s body rest : Chars}
    (h : readArgument opening s = some (body, rest)) :
    s = opening ++ (body ++ '\x22' :: '\x7d' :: rest) := by
  simp only [readArgument, Option.bind_eq_bind, Option.pure_def] at h
  obtain ⟨s₁, h₁, h⟩ := Option.bind_eq_some_iff.1 h
  obtain ⟨s₂, h₂, h⟩ := Option.bind_eq_some_iff.1 h
  simp only [Option.some.injEq, Prod.mk.injEq] at h
  obtain ⟨rfl, rfl⟩ := h
  have hspan := List.takeWhile_append_dropWhile (p := (· != '\x22')) (l := s₁)
  rw [Text.after?_eq_some_iff.1 h₂] at hspan
  rw [Text.after?_eq_some_iff.1 h₁]
  exact congrArg (opening ++ ·) hspan.symm

theorem tag_readInclude : Tag readInclude := (tag_readArgument rfl).filter fun file => file != []

theorem tag_readIf : Tag readIf := (tag_readArgument rfl).or (tag_readArgument rfl)

theorem tag_readElseif : Tag readElseif := tag_readArgument rfl

theorem tag_readFunction : Tag readFunction := (tag_readArgument rfl).filter fun body => body != []

/-- Whether the inside of braces is that of a variable tag. -/
def startsVariable (body : Chars) : Bool :=
  body.head? == some '$' && body.tail.head?.any Text.isNameStart

theorem readVariable_eq (s : Chars) :
    readVariable s = (Text.after? "\x7b".toList s).bind fun s =>
      (Text.after? "\x7d".toList (s.dropWhile fun c => !(c == '\x7b' || c == '\x7d'))).bind
        fun rest =>
          if startsVariable (s.takeWhile fun c => !(c == '\x7b' || c == '\x7d')) then
            some (s.takeWhile fun c => !(c == '\x7b' || c == '\x7d'), rest)
          else none := by
  simp only [readVariable, Option.bind_eq_bind]
  congr 2
  funext s
  congr 1
  funext rest
  generalize s.takeWhile (fun c => !(c == '\x7b' || c == '\x7d')) = body
  split
  · simp [startsVariable]
  · rename_i hne
    rw [if_neg]
    rcases body with _ | ⟨d, _ | ⟨c, cs⟩⟩
    · simp [startsVariable]
    · simp [startsVariable]
    · simp only [startsVariable, List.head?_cons, List.tail_cons, Option.any_some]
      intro h
      simp only [Bool.and_eq_true, beq_iff_eq, Option.some.injEq] at h
      exact hne c cs (by rw [h.1])

theorem readVariable_eq_some {s body rest : Chars} (h : readVariable s = some (body, rest)) :
    s = '\x7b' :: (body ++ '\x7d' :: rest) := by
  rw [readVariable_eq] at h
  obtain ⟨s₁, h₁, h⟩ := Option.bind_eq_some_iff.1 h
  obtain ⟨s₂, h₂, h⟩ := Option.bind_eq_some_iff.1 h
  split at h
  · simp only [Option.some.injEq, Prod.mk.injEq] at h
    obtain ⟨rfl, rfl⟩ := h
    have hspan := List.takeWhile_append_dropWhile (p := fun c => !(c == '\x7b' || c == '\x7d')) (l := s₁)
    rw [Text.after?_eq_some_iff.1 h₂] at hspan
    rw [Text.after?_eq_some_iff.1 h₁]
    exact congrArg ('\x7b' :: ·) hspan.symm
  · cases h

theorem tag_readVariable : Tag readVariable := by
  have hlead : Closing fun s => (Text.after? "\x7d".toList s).map fun rest => ((), rest) :=
    Closing.lead () rfl
  have hspan := (hlead.span (fun c => !(c == '\x7b' || c == '\x7d')) fun body _ =>
    if startsVariable body then some body else none).tag "\x7b".toList rfl
  convert hspan using 1
  funext s
  rw [readVariable_eq]
  congr 1
  funext s
  cases Text.after? "\x7d".toList (s.dropWhile fun c => !(c == '\x7b' || c == '\x7d')) with
  | none => rfl
  | some rest => simp only [Option.bind_some, Option.map_some]; split <;> rfl

theorem tag_readConstant : Tag readConstant := by
  have hlead (lead : Chars) (h : lead.getLast? = some '\x7d') :
      Closing fun s => (Text.after? lead s).map fun rest => ((), rest) := Closing.lead () h
  have hspan := (((hlead "#\x7d".toList rfl).or (hlead "\x7d".toList rfl)).span Text.isNameChar
    fun name _ => if name.head?.any Text.isNameStart then some name else none).tag
      "\x7b#".toList rfl
  convert hspan using 1
  funext s
  simp only [readConstant, Option.bind_eq_bind]
  congr 1
  funext s
  cases Text.after? "#\x7d".toList (s.dropWhile Text.isNameChar) with
  | some rest => simp only [Option.some_or, Option.bind_some, Option.map_some]; split <;> rfl
  | none =>
    simp only [Option.none_or, Option.map_none]
    cases Text.after? "\x7d".toList (s.dropWhile Text.isNameChar) with
    | none => rfl
    | some rest => simp only [Option.bind_some, Option.map_some]; split <;> rfl

/-! ### Loop tags -/

/-- What follows the collection of an opening loop tag: bindings, or the end of the tag. -/
def readLoopEnd (s : Chars) : Option (Option (Chars × Option Chars) × Chars) :=
  ((readBindings s).map fun (names, rest) => (some names, rest)).or
    ((Text.after? "\x7d".toList s).map fun rest => (none, rest))

/-- An opening loop tag, as a header. -/
def loopMark (collection : Chars) (names : Option (Chars × Option Chars)) : LoopMark :=
  .opening ⟨collection, names.map Prod.fst, names.bind Prod.snd⟩

theorem readLoop_eq (s : Chars) :
    readLoop s =
      ((Text.after? "\x7bloop=\x22".toList s).bind fun s =>
        ((Text.after? "\x22".toList (s.dropWhile (· != '\x22'))).bind readLoopEnd).map
          fun (names, rest) => (loopMark (s.takeWhile (· != '\x22')) names, rest)).or
      ((Text.after? "\x7b/loop\x7d".toList s).map fun rest => (.closing, rest)) := by
  unfold readLoop
  cases ho : Text.after? "\x7bloop=\x22".toList s with
  | none => rfl
  | some s' =>
    have hc : Text.after? "\x7b/loop\x7d".toList s = none := by
      rw [Text.after?_eq_some_iff.1 ho]; rfl
    simp only [hc, Option.map_none, Option.or_none, Option.bind_some]
    cases Text.after? "\x22".toList (s'.dropWhile (· != '\x22')) with
    | none => rfl
    | some s₂ =>
      simp only [Option.bind_some, readLoopEnd]
      cases readBindings s₂ with
      | some r => rfl
      | none => cases Text.after? "\x7d".toList s₂ <;> rfl

/-- The texts of the names that a loop tag binds, from what stands between ` as ` and its end. -/
def bindingTexts (inner : Chars) : Option (Chars × Option Chars) :=
  if inner.contains '\n' then none
  else
    match inner with
    | '$' :: more =>
      match Text.cut? " => $".toList more with
      | none => some (inner, none)
      | some (key, value) => some ('$' :: key, some ('$' :: value))
    | _ => none

theorem readBindings_eq (s : Chars) :
    readBindings s = (Text.after? " as ".toList s).bind fun s =>
      (Text.cut? "\x7d".toList s).bind fun (inner, rest) =>
        (bindingTexts inner).map fun names => (names, rest) := by
  simp only [readBindings, Option.bind_eq_bind]
  congr 1
  funext s
  congr 1
  funext ⟨inner, rest⟩
  unfold bindingTexts
  by_cases hn : inner.contains '\n' = true
  · simp only [hn, ↓reduceIte, Option.map_none]
  · simp only [hn, ↓reduceIte, Bool.false_eq_true]
    rcases inner with _ | ⟨d, more⟩
    · rfl
    · by_cases hd : d = '$'
      · subst hd
        cases hc : Text.cut? " => $".toList more <;> simp only [hc, Option.map_some]
      · simp [hd]

theorem closing_readBindings : Closing readBindings := by
  have hcut : Closing (Text.cut? "\x7d".toList) := Closing.cut rfl
  have hspan := (hcut.span (fun _ => false) fun _ inner => bindingTexts inner).afterLead " as ".toList
  convert hspan using 1
  funext s
  rw [readBindings_eq]
  congr 1
  funext s
  have hdrop : s.dropWhile (fun _ => false) = s := by cases s <;> rfl
  rw [hdrop]

theorem tag_readLoop : Tag readLoop := by
  have hend : Closing readLoopEnd :=
    (closing_readBindings.map some).or (Closing.lead none rfl)
  have hlead : Tag fun s => (Text.after? "\x7b/loop\x7d".toList s).map
      fun rest => (LoopMark.closing, rest) := tag_lead _ rfl rfl
  have hopen := ((hend.afterLead "\x22".toList).span (· != '\x22')
    fun collection names => some (loopMark collection names)).tag
      "\x7bloop=\x22".toList rfl
  convert hopen.or hlead using 1
  funext s
  rw [readLoop_eq]
  congr 2
  funext s
  cases (Text.after? "\x22".toList (s.dropWhile (· != '\x22'))).bind readLoopEnd <;> rfl

end ViewBridge.Directive
