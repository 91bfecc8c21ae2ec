import ViewBridge.Proofs.Block
import ViewBridge.Translator.Balance
/-!
# Loop tags in sight

The loop tags that count are those of the visible text: the template with real quotes in its tags and with
a veil over its comments, ignored and verbatim blocks, which keeps every line break where it is. The check
itself reads another text, with placeholders in place of blocks. Both texts are alike: they differ only in
stretches that no reader asks about, and these have as many line breaks.

Results:
* `Alike.after?`, `Alike.cut?`, `Alike.readBlock`, `Alike.readLoop`: alike texts are read alike.
* `Alike.pass`: putting blocks on the shelf and veiling them leaves alike texts alike.
* `loopTags_eq`: the tags that are checked are those of the visible text, each on its line.
-/
namespace ViewBridge

namespace Directive

theorem Closing.rest_suffix {α : Type} {read : Chars → Option (α × Chars)} (h : Closing read) {s rest : Chars}
    {a : α} (hr : read s = some (a, rest)) : rest <:+ s := by
  obtain ⟨used, hs⟩ := h.ends hr
  exact ⟨used ++ ['\x7d'], by rw [hs]; simp⟩

theorem Closing.length_lt {α : Type} {read : Chars → Option (α × Chars)} (h : Closing read) {s rest : Chars}
    {a : α} (hr : read s = some (a, rest)) : rest.length < s.length := by
  obtain ⟨used, hs⟩ := h.ends hr
  rw [hs, List.length_append, List.length_cons]
  omega

/-- Whether a loop tag opens a loop. -/
def LoopMark.opens : LoopMark → Bool
  | .opening _ => true
  | .closing => false

end Directive

/-- The loop tags of a text that stands behind `before`, each with its line: one more than there are line
breaks in front of it. -/
def LoopTag.tagsBehind (before s : Chars) : List LoopTag :=
  match s with
  | [] => []
  | c :: cs =>
    match _h : Directive.readLoop (c :: cs) with
    | some (mark, rest) =>
      ⟨mark.opens, 1 + Text.occurrences '\n' before⟩ ::
        tagsBehind (before ++ (c :: cs).take ((c :: cs).length - rest.length)) rest
    | none => tagsBehind (before ++ [c]) cs
termination_by s.length
decreasing_by
  · exact Directive.tag_readLoop.length_lt _h
  · exact Nat.lt_succ_self _

namespace Translator

/-- A text behind a veil: as long, with its line breaks, and nothing else to be read. -/
def veil (s : Chars) : Chars := s.map fun c => if c = '\n' then c else '_'

/-- A text with its blocks of one kind behind a veil. -/
def veilBlocks (k : BlockKind) (s : Chars) : Chars :=
  Text.substitute (fun s => (k.read s).map fun (body, rest) => (veil (k.source body), rest)) s

/-- A text with real quotes in its tags. -/
def normalize (s : Chars) : Chars := Text.substitute readEntities s

/-- What a template shows: its text with real quotes, without its comments, and without the ignored and
then the verbatim blocks of what is left. -/
def visible (source : Chars) : Chars :=
  veilBlocks .verbatim (veilBlocks .ignored (veilBlocks .comment (normalize source)))

/-- The characters that the readers of blocks and of loop tags ask for, besides line breaks. -/
def asked : Chars := "\x7b\x7d\x22*/=$> aegilnoprs".toList

/-- A stretch of text in which no reader of blocks and loop tags finds anything to start or to go on with. -/
structure Hidden (u : Chars) : Prop where
  ne_nil : u ≠ []
  not_asked : ∀ c ∈ u, c ∉ asked

/-- Texts that agree but for hidden stretches, which have as many line breaks in both. -/
inductive Alike : Chars → Chars → Prop
  | nil : Alike [] []
  | cons (c : Char) {s t : Chars} (h : Alike s t) : Alike (c :: s) (c :: t)
  | hidden {u v s t : Chars} (hu : Hidden u) (hv : Hidden v)
      (hbreaks : Text.occurrences '\n' u = Text.occurrences '\n' v) (h : Alike s t) : Alike (u ++ s) (v ++ t)

namespace Hidden

variable {u : Chars}

theorem of_suffix (h : Hidden u) {v : Chars} (hv : v ≠ []) (hsuffix : v <:+ u) : Hidden v :=
  ⟨hv, fun c hc => h.not_asked c (hsuffix.mem hc)⟩

theorem after? (h : Hidden u) {p : Char} (hp : p ∈ asked) (ps s : Chars) :
    Text.after? (p :: ps) (u ++ s) = none := by
  obtain ⟨c, cs, rfl⟩ := List.exists_cons_of_ne_nil h.ne_nil
  have hne : p ≠ c := fun he => h.not_asked c List.mem_cons_self (he ▸ hp)
  simp [Text.after?, hne]

theorem cut? (h : Hidden u) {p : Char} (hp : p ∈ asked) (ps s : Chars) :
    Text.cut? (p :: ps) (u ++ s) = (Text.cut? (p :: ps) s).map fun (pre, rest) => (u ++ pre, rest) := by
  obtain ⟨hne, hasked⟩ := h
  clear hne
  induction u with
  | nil => simp
  | cons c cs ih =>
    have hpc : p ≠ c := fun he => hasked c List.mem_cons_self (he ▸ hp)
    have hafter : Text.after? (p :: ps) (c :: (cs ++ s)) = none := by simp [Text.after?, hpc]
    rw [List.cons_append, Text.cut?, hafter, ih fun d hd => hasked d (List.mem_cons_of_mem c hd),
      Option.map_map]
    rfl

theorem head? (h : Hidden u) {p : Char} (hp : p ∈ asked) (s : Chars) : (u ++ s).head? ≠ some p := by
  obtain ⟨c, cs, rfl⟩ := List.exists_cons_of_ne_nil h.ne_nil
  intro he
  rw [List.cons_append, List.head?_cons, Option.some.injEq] at he
  exact h.not_asked c List.mem_cons_self (he ▸ hp)

/-- No tag starts in a hidden stretch. -/
theorem read_eq_none {α : Type} (h : Hidden u) {read : Chars → Option (α × Chars)} (tag : Directive.Tag read)
    (s : Chars) : read (u ++ s) = none := by
  cases hr : read (u ++ s) with
  | none => rfl
  | some r => exact absurd (tag.opens hr) (h.head? (by decide) s)

theorem placeholder (n : Nat) (body : Chars) : Hidden (Shelf.placeholder n body) where
  ne_nil := by simp [Shelf.placeholder]
  not_asked c hc hasked := by
    rcases Shelf.mem_placeholder hc with rfl | rfl | hdigit | rfl
    · exact absurd hasked (by decide)
    · exact absurd hasked (by decide)
    · have hnone : (asked.all fun c => !Text.isDigit c) = true := by decide
      have := List.all_eq_true.1 hnone c hasked
      rw [hdigit] at this
      cases this
    · exact absurd hasked (by decide)

theorem veil {s : Chars} (hs : s ≠ []) : Hidden (veil s) where
  ne_nil := by simpa [Translator.veil] using hs
  not_asked c hc := by
    obtain ⟨d, -, rfl⟩ := List.mem_map.1 hc
    by_cases hd : d = '\n'
    · rw [if_pos hd, hd]; decide
    · rw [if_neg hd]; decide

end Hidden

/-! ## Line breaks -/

theorem occurrences_cons (c : Char) (s : Chars) :
    Text.occurrences '\n' (c :: s) = (if c = '\n' then 1 else 0) + Text.occurrences '\n' s := by
  unfold Text.occurrences
  rw [List.count_cons]
  by_cases hc : c = '\n'
  · simp [hc, Nat.add_comm]
  · simp [hc]

theorem occurrences_append (s t : Chars) :
    Text.occurrences '\n' (s ++ t) = Text.occurrences '\n' s + Text.occurrences '\n' t :=
  List.count_append

theorem occurrences_take {s rest : Chars} (h : rest <:+ s) :
    Text.occurrences '\n' (s.take (s.length - rest.length)) + Text.occurrences '\n' rest =
      Text.occurrences '\n' s := by
  obtain ⟨used, rfl⟩ := h
  simp [Text.occurrences]

theorem occurrences_veil (s : Chars) : Text.occurrences '\n' (veil s) = Text.occurrences '\n' s := by
  induction s with
  | nil => rfl
  | cons c cs ih =>
    unfold veil Text.occurrences at *
    by_cases hc : c = '\n' <;> simp [hc, ih]

theorem occurrences_placeholder (n : Nat) (body : Chars) :
    Text.occurrences '\n' (Shelf.placeholder n body) = Text.occurrences '\n' body := by
  have hdigits : (Text.ofNat n).count '\n' = 0 :=
    List.count_eq_zero.2 fun hm => absurd (Shelf.isDigit_of_mem_ofNat hm) (by decide)
  have ho : Shelf.opening ≠ '\n' := by decide
  have hc : Shelf.closing ≠ '\n' := by decide
  simp [Text.occurrences, Shelf.placeholder, hdigits, ho, hc]

theorem BlockKind.occurrences_source (k : BlockKind) (body : Chars) :
    Text.occurrences '\n' (k.source body) = Text.occurrences '\n' body := by
  have hmarkers : k.opening.count '\n' = 0 ∧ k.closing.count '\n' = 0 := by cases k <;> decide
  simp [Text.occurrences, BlockKind.source, hmarkers]

theorem BlockKind.occurrences_output (t : Translator) (k : BlockKind) (body : Chars) :
    Text.occurrences '\n' (k.output t body) = Text.occurrences '\n' body := by
  obtain ⟨dialect, extension⟩ := t
  cases k <;> cases dialect <;>
    simp [Text.occurrences, BlockKind.output, Dialect.comment, Dialect.verbatim, Dialect.tag]

/-! ## Results in a relation -/

section
variable {α β γ δ : Type} {R : α → β → Prop} {R' : γ → δ → Prop} {a : Option α} {b : Option β}

theorem rel_cases (h : Option.Rel R a b) :
    a = none ∧ b = none ∨ ∃ x y, a = some x ∧ b = some y ∧ R x y := by
  cases h with
  | none => exact .inl ⟨rfl, rfl⟩
  | some h => exact .inr ⟨_, _, rfl, rfl, h⟩

theorem rel_bind (h : Option.Rel R a b) {f : α → Option γ} {g : β → Option δ}
    (hfg : ∀ {x y}, R x y → Option.Rel R' (f x) (g y)) : Option.Rel R' (a.bind f) (b.bind g) := by
  cases h with
  | none => exact .none
  | some h => exact hfg h

theorem rel_map (h : Option.Rel R a b) {f : α → γ} {g : β → δ} (hfg : ∀ {x y}, R x y → R' (f x) (g y)) :
    Option.Rel R' (a.map f) (b.map g) := by
  cases h with
  | none => exact .none
  | some h => exact .some (hfg h)

theorem rel_or {a' : Option α} {b' : Option β} (h : Option.Rel R a b) (h' : Option.Rel R a' b') :
    Option.Rel R (a.or a') (b.or b') := by
  cases h with
  | none => exact h'
  | some h => exact .some h

end

namespace Alike

variable {s t : Chars}

theorem refl (s : Chars) : Alike s s := by
  induction s with
  | nil => exact .nil
  | cons c cs ih => exact .cons c ih

theorem occurrences (h : Alike s t) : Text.occurrences '\n' s = Text.occurrences '\n' t := by
  induction h with
  | nil => rfl
  | cons c _ ih => simpa [Text.occurrences, List.count_cons] using ih
  | hidden _ _ hbreaks _ ih =>
    unfold Text.occurrences at *
    rw [List.count_append, List.count_append, hbreaks, ih]

theorem contains_break (h : Alike s t) : s.contains '\n' = t.contains '\n' := by
  have hcount : s.count '\n' = t.count '\n' := h.occurrences
  rw [Bool.eq_iff_iff, List.contains_iff_mem, List.contains_iff_mem, ← List.count_pos_iff,
    ← List.count_pos_iff, hcount]

theorem head?_eq_some_iff (h : Alike s t) {p : Char} (hp : p ∈ asked) :
    s.head? = some p ↔ t.head? = some p := by
  cases h with
  | nil => rfl
  | cons c _ => rfl
  | hidden hu hv => exact iff_of_false (hu.head? hp _) (hv.head? hp _)

/-! ## Reading alike texts -/

theorem after? {lead : Chars} (hlead : lead ⊆ asked) (h : Alike s t) :
    Option.Rel Alike (Text.after? lead s) (Text.after? lead t) := by
  induction lead generalizing s t with
  | nil => exact .some h
  | cons p ps ih =>
    have hp : p ∈ asked := hlead List.mem_cons_self
    cases h with
    | nil => exact .none
    | cons c h =>
      unfold Text.after?
      split
      · exact ih (fun q hq => hlead (List.mem_cons_of_mem p hq)) h
      · exact .none
    | hidden hu hv =>
      rw [hu.after? hp, hv.after? hp]
      exact .none

theorem dropWhile {q : Char} (hq : q ∈ asked) (h : Alike s t) :
    Alike (s.dropWhile (· != q)) (t.dropWhile (· != q)) := by
  have hpass {u : Chars} (hu : Hidden u) : ∀ c ∈ u, (c != q) = true := by
    intro c hc
    rw [bne_iff_ne]
    exact fun he => hu.not_asked c hc (he ▸ hq)
  induction h with
  | nil => exact .nil
  | cons c h ih =>
    rw [List.dropWhile_cons, List.dropWhile_cons]
    split
    · exact ih
    · exact .cons c h
  | hidden hu hv _ _ ih =>
    rwa [List.dropWhile_append_of_pos (hpass hu), List.dropWhile_append_of_pos (hpass hv)]

/-- What is read from alike texts: results in a relation, and alike rests. -/
abbrev Both {α : Type} (R : α → α → Prop) : Option (α × Chars) → Option (α × Chars) → Prop :=
  Option.Rel fun a b => R a.1 b.1 ∧ Alike a.2 b.2

theorem cut? {p : Char} {ps : Chars} (hsep : p :: ps ⊆ asked) (h : Alike s t) :
    Both Alike (Text.cut? (p :: ps) s) (Text.cut? (p :: ps) t) := by
  have hp : p ∈ asked := hsep List.mem_cons_self
  induction h with
  | nil => exact .none
  | cons c h ih =>
    rw [Text.cut?, Text.cut?]
    obtain ⟨hs, ht⟩ | ⟨rest, rest', hs, ht, hrest⟩ := rel_cases (after? hsep (Alike.cons c h))
    · rw [hs, ht]
      exact rel_map ih fun hr => ⟨.cons c hr.1, hr.2⟩
    · rw [hs, ht]
      exact .some ⟨.nil, hrest⟩
  | hidden hu hv hbreaks _ ih =>
    rw [hu.cut? hp, hv.cut? hp]
    exact rel_map ih fun hr => ⟨.hidden hu hv hbreaks hr.1, hr.2⟩

theorem readBlock {p q : Char} {ps qs : Chars} (hopening : p :: ps ⊆ asked) (hclosing : q :: qs ⊆ asked)
    (h : Alike s t) :
    Both Alike (Directive.readBlock (p :: ps) (q :: qs) s) (Directive.readBlock (p :: ps) (q :: qs) t) :=
  rel_bind (after? hopening h) fun h => cut? hclosing h

theorem read (k : BlockKind) (h : Alike s t) : Both Alike (k.read s) (k.read t) := by
  cases k <;> exact readBlock (by decide) (by decide) h

theorem bindingTexts_isSome (inner : Chars) :
    (Directive.bindingTexts inner).isSome = (!inner.contains '\n' && inner.head? == some '$') := by
  unfold Directive.bindingTexts
  cases hbreak : inner.contains '\n' with
  | true => rfl
  | false =>
    match inner with
    | [] => rfl
    | c :: more =>
      by_cases hc : c = '$'
      · subst hc
        simp only [Bool.false_eq_true, if_false]
        cases Text.cut? " => $".toList more <;> rfl
      · simp [hc]

theorem bindingTexts (h : Alike s t) :
    Option.Rel (fun _ _ => True) (Directive.bindingTexts s) (Directive.bindingTexts t) := by
  have hhead : (s.head? == some '$') = (t.head? == some '$') := by
    rw [Bool.eq_iff_iff, beq_iff_eq, beq_iff_eq]
    exact h.head?_eq_some_iff (by decide)
  have hsome : (Directive.bindingTexts s).isSome = (Directive.bindingTexts t).isSome := by
    rw [bindingTexts_isSome, bindingTexts_isSome, h.contains_break, hhead]
  cases hs : Directive.bindingTexts s <;> cases ht : Directive.bindingTexts t <;> rw [hs, ht] at hsome
  · exact .none
  · cases hsome
  · cases hsome
  · exact .some trivial

theorem readBindings (h : Alike s t) :
    Both (fun _ _ => True) (Directive.readBindings s) (Directive.readBindings t) := by
  rw [Directive.readBindings_eq, Directive.readBindings_eq]
  refine rel_bind (after? (by decide) h) fun h => ?_
  refine rel_bind (cut? (by decide) h) fun hr => ?_
  exact rel_map (bindingTexts hr.1) fun _ => ⟨trivial, hr.2⟩

theorem readLoopEnd (h : Alike s t) :
    Both (fun _ _ => True) (Directive.readLoopEnd s) (Directive.readLoopEnd t) :=
  rel_or (rel_map (readBindings h) fun hr => ⟨trivial, hr.2⟩)
    (rel_map (after? (by decide) h) fun h => ⟨trivial, h⟩)

/-- Loop tags are read alike: both open a loop, or both close one. -/
theorem readLoop (h : Alike s t) :
    Both (fun mark mark' => mark.opens = mark'.opens) (Directive.readLoop s) (Directive.readLoop t) := by
  rw [Directive.readLoop_eq, Directive.readLoop_eq]
  refine rel_or ?_ (rel_map (after? (by decide) h) fun h => ⟨rfl, h⟩)
  refine rel_bind (after? (by decide) h) fun h => ?_
  have hasked : "\x22".toList ⊆ asked := by decide
  have hquote := after? hasked (h.dropWhile (q := '\x22') (by decide))
  exact rel_map (rel_bind hquote fun h => readLoopEnd h) fun hr => ⟨rfl, hr.2⟩

end Alike

/-! ## Passing over alike texts -/

/-- The pass that puts blocks on the shelf, and the veil over blocks, leave alike texts alike. -/
theorem Alike.pass (t : Translator) (k : BlockKind) (p : Progress) {s s' : Chars} (h : Alike s s') :
    Alike ((k.pass t).run p s).1 (veilBlocks k s') := by
  induction hn : s.length using Nat.strongRecOn generalizing p s s' with
  | ind n ih =>
    cases h with
    | nil =>
      rw [Pass.run_nil, veilBlocks, Text.substitute_nil]
      exact .nil
    | @cons c s s' h =>
      rw [List.length_cons] at hn
      obtain ⟨hs, hs'⟩ | ⟨⟨body, rest⟩, ⟨body', rest'⟩, hs, hs', hbody, hrest⟩ :=
        rel_cases (Alike.read k (Alike.cons c h))
      · rw [Pass.run, Text.substituteFrom_cons_of_none (by rw [BlockKind.find_pass, hs]; rfl), veilBlocks,
          Text.substitute_cons_of_none (by rw [hs']; rfl)]
        exact .cons c (ih s.length (by omega) p h rfl)
      · have hlen := k.tag_read.length_lt hs
        have hlen' := k.tag_read.length_lt hs'
        have hfind : (k.pass t).find p (c :: s) = some (Shelf.placeholder p.shelf.length (k.output t body),
            p.shelving (k.output t body), rest) := by rw [k.find_pass, hs]; rfl
        have hveil : ((k.read (c :: s')).map fun (body, rest) => (veil (k.source body), rest)) =
            some (veil (k.source body'), rest') := by rw [hs']; rfl
        have hsource : k.source body' ≠ [] := List.append_ne_nil_of_left_ne_nil k.marker_opening.ne_nil _
        have hbreaks : Text.occurrences '\n' (Shelf.placeholder p.shelf.length (k.output t body)) =
            Text.occurrences '\n' (veil (k.source body')) := by
          rw [occurrences_placeholder, k.occurrences_output t body, occurrences_veil, k.occurrences_source]
          exact hbody.occurrences
        have hrest : Alike rest rest' := hrest
        have htail : Alike ((k.pass t).run (p.shelving (k.output t body)) rest).1 (veilBlocks k rest') := by
          rw [List.length_cons] at hlen
          exact ih rest.length (by omega) _ hrest rfl
        rw [Pass.run, Text.substituteFrom_of_some hfind hlen, veilBlocks, Text.substitute_of_some hveil hlen']
        exact Alike.hidden (Hidden.placeholder _ _) (Hidden.veil hsource) hbreaks htail
    | @hidden u v s s' hu hv hbreaks h =>
      have hlen : 0 < u.length := List.length_pos_iff.2 hu.ne_nil
      rw [List.length_append] at hn
      rw [(k.pass t).run_append_of_none p fun w hw hs => (hu.of_suffix hw hs).read_eq_none k.tag_read s,
        veilBlocks, Text.substitute_append_of_none fun w hw hs => by
          rw [(hv.of_suffix hw hs).read_eq_none k.tag_read s']; rfl]
      exact .hidden hu hv hbreaks (ih s.length (by omega) p h rfl)

/-! ## Tags of alike texts -/

end Translator

namespace LoopTag

open Directive (readLoop tag_readLoop)

variable {c : Char} {cs : Chars}

theorem scan_cons_of_none (line : Nat) (h : readLoop (c :: cs) = none) :
    scan line (c :: cs) = scan (if c = '\n' then line + 1 else line) cs := by
  rw [scan, h]

theorem scan_of_some (line : Nat) {s rest : Chars} {mark : Directive.LoopMark}
    (h : readLoop s = some (mark, rest)) :
    scan line s =
      ⟨mark.opens, line⟩ :: scan (line + Text.occurrences '\n' (s.take (s.length - rest.length))) rest := by
  have hlen := tag_readLoop.length_lt h
  cases s with
  | nil => simp at hlen
  | cons c cs =>
    rw [List.length_cons] at hlen
    rw [scan, h]
    simp only [show rest.length ≤ cs.length by omega, if_true, List.length_cons]
    cases mark <;> rfl

theorem tagsBehind_cons_of_none (before : Chars) (h : readLoop (c :: cs) = none) :
    tagsBehind before (c :: cs) = tagsBehind (before ++ [c]) cs := by
  rw [tagsBehind]
  split
  · next h' => rw [h] at h'; cases h'
  · rfl

theorem tagsBehind_of_some (before : Chars) {s rest : Chars} {mark : Directive.LoopMark}
    (h : readLoop s = some (mark, rest)) :
    tagsBehind before s = ⟨mark.opens, 1 + Text.occurrences '\n' before⟩ ::
      tagsBehind (before ++ s.take (s.length - rest.length)) rest := by
  have hlen := tag_readLoop.length_lt h
  cases s with
  | nil => simp at hlen
  | cons c cs =>
    rw [tagsBehind]
    split
    · next h' =>
      rw [h, Option.some.injEq, Prod.mk.injEq] at h'
      rw [h'.1, h'.2]
    · next h' => rw [h] at h'; cases h'

end LoopTag

namespace Translator

theorem scan_hidden {u : Chars} (h : Hidden u) (line : Nat) (s : Chars) :
    LoopTag.scan line (u ++ s) = LoopTag.scan (line + Text.occurrences '\n' u) s := by
  obtain ⟨hne, hasked⟩ := h
  clear hne
  induction u generalizing line with
  | nil => rfl
  | cons c cs ih =>
    have hread : Directive.readLoop (c :: (cs ++ s)) = none :=
      Hidden.read_eq_none ⟨List.cons_ne_nil c cs, hasked⟩ Directive.tag_readLoop s
    rw [List.cons_append, LoopTag.scan_cons_of_none line hread,
      ih _ fun d hd => hasked d (List.mem_cons_of_mem c hd), occurrences_cons]
    split <;> congr 1 <;> omega

theorem tagsBehind_hidden {u : Chars} (h : Hidden u) (before s : Chars) :
    LoopTag.tagsBehind before (u ++ s) = LoopTag.tagsBehind (before ++ u) s := by
  obtain ⟨hne, hasked⟩ := h
  clear hne
  induction u generalizing before with
  | nil => rw [List.append_nil, List.nil_append]
  | cons c cs ih =>
    have hread : Directive.readLoop (c :: (cs ++ s)) = none :=
      Hidden.read_eq_none ⟨List.cons_ne_nil c cs, hasked⟩ Directive.tag_readLoop s
    rw [List.cons_append, LoopTag.tagsBehind_cons_of_none before hread,
      ih _ fun d hd => hasked d (List.mem_cons_of_mem c hd), List.append_assoc]
    rfl

/-- The check goes over a text as over one that is alike, and knows the line of every tag. -/
theorem scan_eq {s t : Chars} (h : Alike s t) (before : Chars) :
    LoopTag.scan (1 + Text.occurrences '\n' before) s = LoopTag.tagsBehind before t := by
  induction hn : s.length using Nat.strongRecOn generalizing before s t with
  | ind n ih =>
    cases h with
    | nil => rw [LoopTag.scan, LoopTag.tagsBehind]
    | @cons c s t h =>
      rw [List.length_cons] at hn
      obtain ⟨hs, ht⟩ | ⟨⟨mark, rest⟩, ⟨mark', rest'⟩, hs, ht, hmark, hrest⟩ :=
        rel_cases (Alike.readLoop (Alike.cons c h))
      · have hline : (if c = '\n' then 1 + Text.occurrences '\n' before + 1
            else 1 + Text.occurrences '\n' before) = 1 + Text.occurrences '\n' (before ++ [c]) := by
          rw [occurrences_append, occurrences_cons]
          split <;> simp [Text.occurrences, Nat.add_assoc]
        rw [LoopTag.scan_cons_of_none _ hs, LoopTag.tagsBehind_cons_of_none _ ht, hline]
        exact ih s.length (by omega) h _ rfl
      · have hlen := Directive.tag_readLoop.length_lt hs
        rw [List.length_cons] at hlen
        have hused := occurrences_take (Directive.tag_readLoop.rest_suffix hs)
        have hused' := occurrences_take (Directive.tag_readLoop.rest_suffix ht)
        have hall : Text.occurrences '\n' (c :: s) = Text.occurrences '\n' (c :: t) :=
          (Alike.cons c h).occurrences
        have hrests := Alike.occurrences hrest
        have hmark : mark.opens = mark'.opens := hmark
        rw [LoopTag.scan_of_some _ hs, LoopTag.tagsBehind_of_some _ ht, hmark,
          ← ih rest.length (by omega) hrest _ rfl, occurrences_append]
        congr 2
        simp only at hrests
        omega
    | @hidden u v s t hu hv hbreaks h =>
      have hlen : 0 < u.length := List.length_pos_iff.2 hu.ne_nil
      rw [List.length_append] at hn
      rw [scan_hidden hu, tagsBehind_hidden hv, ← ih s.length (by omega) h _ rfl, occurrences_append,
        hbreaks, Nat.add_assoc]

/-- The passes that run before the loop tags are looked at. -/
theorem runStages_early (t : Translator) (source : Chars) :
    (t.runStages [.entities, .comments, .verbatim] {} source).1 =
      (Pass.runAll [BlockKind.comment.pass t, BlockKind.ignored.pass t, BlockKind.verbatim.pass t] {}
        (normalize source)).1 := by
  have hpasses : [Stage.entities, .comments, .verbatim].flatMap t.passes =
      entityPass :: [BlockKind.comment.pass t, BlockKind.ignored.pass t, BlockKind.verbatim.pass t] := rfl
  rw [runStages_eq, hpasses, Pass.runAll, entityPass, Pass.run_plain]
  rfl

/-- The tags that are checked are those of the visible text, each on its line. -/
theorem loopTags_eq (source : Chars) : loopTags source = LoopTag.tagsBehind [] (visible source) := by
  rw [loopTags, runStages_early]
  simp only [Pass.runAll]
  have hcomments := (Alike.refl (normalize source)).pass ⟨.twig, "html".toList⟩ .comment {}
  have hignored := hcomments.pass ⟨.twig, "html".toList⟩ .ignored
  have hverbatim := fun p p' => (hignored p).pass ⟨.twig, "html".toList⟩ .verbatim p'
  exact scan_eq (hverbatim _ _) []

end Translator
end ViewBridge
