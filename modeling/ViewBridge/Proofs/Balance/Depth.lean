import Mathlib
import ViewBridge.Proofs.Balance.Escaped
import ViewBridge.Proofs.Balance.Bracket
import ViewBridge.Proofs.Item.Reading
/-!
# The depth of loops

The check of a template looks at the loop tags before the includes are written, the loop stage counts its depth
after that. The depth is that of a bracketed text exactly if the tags that the stage reads pair up. They are the
tags that are checked if no include stands in the way of a tag: none has a brace in its name, and none begins
inside of a loop tag.

Results:
* `balance_eq_ok_iff`: tags are balanced if the depth never falls below zero and comes back to it.
* `visits_stepLoop_iff`: the depths of the loop stage are those of the tags read so far.
* `exists_loopText`: a loop tag is read from its own text, whatever stands behind it.
* `directions_writeIncludes`: writing includes that stand apart changes nothing about the loop tags.
* `checkBalance_depth`: the check, and the depth of the loop stage.
-/
namespace ViewBridge

namespace Text

/-- The states that a pass over a text goes through. -/
inductive Visits {σ : Type} (find : σ → Chars → Option (Chars × σ × Chars)) : σ → Chars → σ → Prop
  | here (st : σ) (s : Chars) : Visits find st s st
  | copy {st last : σ} {c : Char} {cs : Chars} (hnone : find st (c :: cs) = none) (h : Visits find st cs last) :
    Visits find st (c :: cs) last
  | read {st st' last : σ} {s out rest : Chars} (hfind : find st s = some (out, st', rest))
    (hlen : rest.length < s.length) (h : Visits find st' rest last) : Visits find st s last

end Text

/-! ## Tags and depths -/

namespace LoopTag

/-- The depth that tags lead to, counted from the depth in front of them. -/
def rise (tags : List LoopTag) : Int := (tags.map fun tag => if tag.opens then 1 else -1).sum

@[simp] theorem rise_nil : rise [] = 0 := rfl

@[simp] theorem rise_opening (line : Nat) (tags : List LoopTag) : rise (⟨true, line⟩ :: tags) = 1 + rise tags := rfl

@[simp] theorem rise_closing (line : Nat) (tags : List LoopTag) : rise (⟨false, line⟩ :: tags) = -1 + rise tags := rfl

theorem forall_prefix_cons {p : List LoopTag → Prop} {tag : LoopTag} {tags : List LoopTag} :
    (∀ front, front <+: tag :: tags → p front) ↔ p [] ∧ ∀ front, front <+: tags → p (tag :: front) := by
  constructor
  · intro h
    exact ⟨h [] List.nil_prefix, fun front hfront => h _ (List.cons_prefix_cons.2 ⟨rfl, hfront⟩)⟩
  · rintro ⟨hnil, hcons⟩ front hfront
    cases front with
    | nil => exact hnil
    | cons first front =>
      obtain ⟨rfl, hrest⟩ := List.cons_prefix_cons.1 hfront
      exact hcons front hrest

/-- Tags are balanced if the depth never falls below zero and comes back to it. -/
theorem balance_eq_ok_iff (opened : List Nat) (tags : List LoopTag) :
    balance opened tags = .ok () ↔
      (∀ front, front <+: tags → 0 ≤ opened.length + rise front) ∧ opened.length + rise tags = 0 := by
  induction tags generalizing opened with
  | nil =>
    cases opened with
    | nil => simp [balance]
    | cons line opened =>
      simp only [balance, reduceCtorEq, false_iff, rise_nil, List.length_cons]
      omega
  | cons tag tags ih =>
    obtain ⟨opens, line⟩ := tag
    rw [forall_prefix_cons]
    cases opens with
    | true =>
      have hshift (n : Int) : ((opened.length + 1 : Nat) : Int) + n = opened.length + (1 + n) := by omega
      simp only [balance, ih, rise_opening, rise_nil, List.length_cons, hshift]
      exact ⟨fun h => ⟨⟨by omega, h.1⟩, h.2⟩, fun h => ⟨h.1.2, h.2⟩⟩
    | false =>
      cases opened with
      | nil =>
        simp only [balance, reduceCtorEq, false_iff, not_and]
        intro h
        have hclosed := h.2 [] List.nil_prefix
        simp at hclosed
      | cons line' opened =>
        have hshift (n : Int) : ((opened.length + 1 : Nat) : Int) + (-1 + n) = opened.length + n := by omega
        simp only [balance, ih, rise_closing, rise_nil, List.length_cons, hshift]
        exact ⟨fun h => ⟨⟨by omega, h.1⟩, h.2⟩, fun h => ⟨h.1.2, h.2⟩⟩

theorem balance_eq_ok_iff_bracketed (tags : List LoopTag) : balance [] tags = .ok () ↔ Bracketed tags := by
  rw [balance_eq_iff]
  exact ⟨fun h => by cases h; assumption, .balanced⟩

/-- Whether each of the loop tags of a text opens, in their order. -/
def directions (s : Chars) : List Bool := (scan 1 s).map LoopTag.opens

theorem map_opens_scan (line line' : Nat) (s : Chars) :
    (scan line s).map LoopTag.opens = (scan line' s).map LoopTag.opens := by
  induction hn : s.length using Nat.strongRecOn generalizing s line line' with
  | ind n ih =>
    cases s with
    | nil => rw [scan, scan]
    | cons c cs =>
      rw [List.length_cons] at hn
      cases hread : Directive.readLoop (c :: cs) with
      | none =>
        rw [scan_cons_of_none line hread, scan_cons_of_none line' hread]
        exact ih cs.length (by omega) _ _ cs rfl
      | some r =>
        have hlen := Directive.tag_readLoop.length_lt hread
        rw [List.length_cons] at hlen
        rw [scan_of_some line hread, scan_of_some line' hread, List.map_cons, List.map_cons]
        exact congrArg _ (ih r.2.length (by omega) _ _ r.2 rfl)

theorem directions_cons_of_none {c : Char} {cs : Chars} (h : Directive.readLoop (c :: cs) = none) :
    directions (c :: cs) = directions cs := by
  rw [directions, scan_cons_of_none 1 h]
  exact map_opens_scan _ _ cs

theorem directions_of_some {s rest : Chars} {mark : Directive.LoopMark}
    (h : Directive.readLoop s = some (mark, rest)) : directions s = mark.opens :: directions rest := by
  rw [directions, scan_of_some 1 h, List.map_cons]
  exact congrArg _ (map_opens_scan _ _ rest)

theorem directions_append_of_none {s t : Chars}
    (h : ∀ v, v ≠ [] → v <:+ s → Directive.readLoop (v ++ t) = none) : directions (s ++ t) = directions t := by
  induction s with
  | nil => rfl
  | cons c cs ih =>
    have hfirst := h (c :: cs) (List.cons_ne_nil c cs) (List.suffix_refl _)
    rw [List.cons_append] at hfirst ⊢
    rw [directions_cons_of_none hfirst]
    exact ih fun v hv hsuffix => h v hv (hsuffix.trans (List.suffix_cons c cs))

theorem rise_eq_of_directions {tags tags' : List LoopTag}
    (h : tags.map LoopTag.opens = tags'.map LoopTag.opens) : rise tags = rise tags' := by
  have hrise (tags : List LoopTag) :
      rise tags = ((tags.map LoopTag.opens).map fun opens => if opens then (1 : Int) else -1).sum := by
    rw [List.map_map]
    rfl
  rw [hrise, hrise, h]

/-- Whether tags are balanced does not hang on their lines. -/
theorem balance_ok_congr {tags tags' : List LoopTag} (h : tags.map LoopTag.opens = tags'.map LoopTag.opens) :
    balance [] tags = .ok () ↔ balance [] tags' = .ok () := by
  have hfronts {tags tags' : List LoopTag} (h : tags.map LoopTag.opens = tags'.map LoopTag.opens)
      (hall : ∀ front, front <+: tags → 0 ≤ (([] : List Nat).length : Int) + rise front) :
      ∀ front, front <+: tags' → 0 ≤ (([] : List Nat).length : Int) + rise front := by
    intro front hfront
    have htake : (tags.take front.length).map LoopTag.opens = front.map LoopTag.opens := by
      rw [List.map_take, h, ← List.map_take, ← List.prefix_iff_eq_take.1 hfront]
    rw [← rise_eq_of_directions htake]
    exact hall _ (List.take_prefix _ _)
  rw [balance_eq_ok_iff, balance_eq_ok_iff, rise_eq_of_directions h]
  exact ⟨fun hall => ⟨hfronts h hall.1, hall.2⟩, fun hall => ⟨hfronts h.symm hall.1, hall.2⟩⟩

end LoopTag

/-! ## Depths of the loop stage -/

namespace Translator

open LoopTag (rise)

theorem rise_mark (opens : Bool) (line : Nat) (tags : List LoopTag) :
    rise (⟨opens, line⟩ :: tags) = (if opens then 1 else -1) + rise tags := rfl

theorem stepLoop_of_read (t : Translator) (depth : Int) {s rest : Chars} {mark : Directive.LoopMark}
    (h : Directive.readLoop s = some (mark, rest)) :
    ∃ out, t.stepLoop depth s = some (out, depth + (if mark.opens then 1 else -1), rest) := by
  rw [stepLoop, h]
  cases mark with
  | closing => exact ⟨_, rfl⟩
  | opening header => exact ⟨_, rfl⟩

/-- The loop stage ends at the depth that all tags lead to. -/
theorem substituteFrom_stepLoop (t : Translator) (depth : Int) (line : Nat) (s : Chars) :
    (Text.substituteFrom t.stepLoop depth s).2 = depth + rise (LoopTag.scan line s) := by
  induction hn : s.length using Nat.strongRecOn generalizing s depth line with
  | ind n ih =>
    cases s with
    | nil => rw [Text.substituteFrom_nil, LoopTag.scan]; simp
    | cons c cs =>
      rw [List.length_cons] at hn
      cases hread : Directive.readLoop (c :: cs) with
      | none =>
        have hstep : t.stepLoop depth (c :: cs) = none := by rw [stepLoop, hread]; rfl
        rw [Text.substituteFrom_cons_of_none hstep, LoopTag.scan_cons_of_none line hread]
        exact ih cs.length (by omega) depth _ cs rfl
      | some r =>
        have hlen := Directive.tag_readLoop.length_lt hread
        obtain ⟨out, hstep⟩ := t.stepLoop_of_read depth hread
        rw [Text.substituteFrom_of_some hstep hlen, LoopTag.scan_of_some line hread, rise_mark, ← Int.add_assoc]
        rw [List.length_cons] at hlen
        exact ih r.2.length (by omega) _ _ r.2 rfl

/-- The depths of the loop stage are those that the tags read so far lead to. -/
theorem visits_stepLoop_iff (t : Translator) (depth : Int) (line : Nat) (s : Chars) (last : Int) :
    Text.Visits t.stepLoop depth s last ↔ ∃ front, front <+: LoopTag.scan line s ∧ last = depth + rise front := by
  induction hn : s.length using Nat.strongRecOn generalizing s depth line last with
  | ind n ih =>
    cases s with
    | nil =>
      rw [LoopTag.scan]
      constructor
      · intro h
        cases h with
        | here => exact ⟨[], List.nil_prefix, by simp⟩
        | read _ hlen => simp at hlen
      · rintro ⟨front, hfront, rfl⟩
        rw [List.prefix_nil.1 hfront, LoopTag.rise_nil, Int.add_zero]
        exact .here depth []
    | cons c cs =>
      rw [List.length_cons] at hn
      cases hread : Directive.readLoop (c :: cs) with
      | none =>
        have hstep : t.stepLoop depth (c :: cs) = none := by rw [stepLoop, hread]; rfl
        rw [LoopTag.scan_cons_of_none line hread, ← ih cs.length (by omega) depth _ cs last rfl]
        constructor
        · intro h
          cases h with
          | here => exact .here _ cs
          | copy _ h => exact h
          | read hfind => rw [hstep] at hfind; cases hfind
        · exact .copy hstep
      | some r =>
        have hlen := Directive.tag_readLoop.length_lt hread
        have hlt : r.2.length < n := by rw [List.length_cons] at hlen; omega
        obtain ⟨out, hstep⟩ := t.stepLoop_of_read depth hread
        rw [LoopTag.scan_of_some line hread]
        constructor
        · intro h
          cases h with
          | here => exact ⟨[], List.nil_prefix, by simp⟩
          | copy hnone => rw [hstep] at hnone; cases hnone
          | read hfind _ h =>
            obtain ⟨rfl, rfl, rfl⟩ : out = _ ∧ depth + (if r.1.opens then 1 else -1) = _ ∧ r.2 = _ := by
              simpa using hstep.symm.trans hfind
            obtain ⟨front, hfront, hlast⟩ := (ih r.2.length hlt _ _ r.2 _ rfl).1 h
            exact ⟨_ :: front, List.cons_prefix_cons.2 ⟨rfl, hfront⟩, by rw [rise_mark, hlast, Int.add_assoc]⟩
        · rintro ⟨front, hfront, rfl⟩
          cases front with
          | nil => rw [LoopTag.rise_nil, Int.add_zero]; exact .here depth _
          | cons first front =>
            obtain ⟨rfl, hrest⟩ := List.cons_prefix_cons.1 hfront
            rw [rise_mark, ← Int.add_assoc]
            exact .read hstep hlen ((ih r.2.length hlt _ _ r.2 _ rfl).2 ⟨front, hrest, rfl⟩)

end Translator

/-! ## Loop tags as texts -/

namespace Directive

/-- The texts of loop tags. -/
inductive LoopText : Chars → LoopMark → Prop
  | closing : LoopText "\x7b/loop\x7d".toList .closing
  | plain {collection : Chars} (hquote : '\x22' ∉ collection) :
    LoopText ("\x7bloop=\x22".toList ++ (collection ++ "\x22\x7d".toList)) (loopMark collection none)
  | named {collection inner : Chars} {names : Chars × Option Chars} (hquote : '\x22' ∉ collection)
    (hbrace : '\x7d' ∉ inner) (hnames : bindingTexts inner = some names) :
    LoopText ("\x7bloop=\x22".toList ++ (collection ++ ("\x22 as ".toList ++ (inner ++ "\x7d".toList))))
      (loopMark collection (some names))

theorem LoopText.readLoop_append {used : Chars} {mark : LoopMark} (h : LoopText used mark) (rest : Chars) :
    readLoop (used ++ rest) = some (mark, rest) := by
  have hopening {collection : Chars} {names : Option (Chars × Option Chars)} (hquote : '\x22' ∉ collection)
      (end_ : Chars) (hend : readLoopEnd (end_ ++ rest) = some (names, rest)) :
      readLoop ("\x7bloop=\x22".toList ++ (collection ++ '\x22' :: end_) ++ rest) =
        some (loopMark collection names, rest) := by
    obtain ⟨htake, hdrop⟩ := Text.span_append_cons (p := (· != '\x22')) (q := '\x22') (s := collection)
      (fun c hc => bne_iff_ne.2 fun he => hquote (he ▸ hc)) rfl (end_ ++ rest)
    have hread : Text.after? "\x22".toList ('\x22' :: (end_ ++ rest)) = some (end_ ++ rest) := rfl
    rw [readLoop_eq, List.append_assoc, Text.after?_append, Option.bind_some, List.append_assoc,
      List.cons_append, htake, hdrop, hread, Option.bind_some, hend]
    rfl
  cases h with
  | closing => rfl
  | plain hquote => exact hopening hquote "\x7d".toList rfl
  | @named collection inner names hquote hbrace hnames =>
    refine hopening hquote (" as ".toList ++ (inner ++ "\x7d".toList)) ?_
    have hcut := @Text.cut?_append_of_not_mem '\x7d' [] inner hbrace rest
    have hread : readBindings (" as ".toList ++ (inner ++ "\x7d".toList) ++ rest) = some (names, rest) := by
      rw [readBindings_eq, List.append_assoc, Text.after?_append, Option.bind_some, List.append_assoc]
      exact (congrArg (Option.bind · _) hcut).trans (by simp only [Option.bind_some, hnames, Option.map_some])
    rw [readLoopEnd, hread]
    rfl

theorem exists_loopText {s rest : Chars} {mark : LoopMark} (h : readLoop s = some (mark, rest)) :
    ∃ used, LoopText used mark ∧ s = used ++ rest := by
  rw [readLoop_eq] at h
  rcases Option.or_eq_some_iff.1 h with h | ⟨-, h⟩
  · obtain ⟨s₁, h₁, h⟩ := Option.bind_eq_some_iff.1 h
    obtain ⟨⟨names, rest'⟩, h, he⟩ := Option.map_eq_some_iff.1 h
    obtain ⟨s₂, h₂, hend⟩ := Option.bind_eq_some_iff.1 h
    obtain ⟨rfl, rfl⟩ := Prod.mk.inj he
    have hquote : '\x22' ∉ s₁.takeWhile (· != '\x22') := fun hm => by
      simpa using List.mem_takeWhile_imp hm
    have hs₁ := List.takeWhile_append_dropWhile (p := (· != '\x22')) (l := s₁)
    rw [Text.after?_eq_some_iff.1 h₂] at hs₁
    rw [Text.after?_eq_some_iff.1 h₁]
    generalize s₁.takeWhile (· != '\x22') = collection at hquote hs₁ ⊢
    rcases Option.or_eq_some_iff.1 hend with hend | ⟨-, hend⟩
    · obtain ⟨⟨names, rest⟩, hread, he⟩ := Option.map_eq_some_iff.1 hend
      obtain ⟨rfl, rfl⟩ := Prod.mk.inj he
      rw [readBindings_eq] at hread
      obtain ⟨s₃, h₃, hread⟩ := Option.bind_eq_some_iff.1 hread
      obtain ⟨⟨inner, rest⟩, hcut, hread⟩ := Option.bind_eq_some_iff.1 hread
      obtain ⟨names, hnames, he⟩ := Option.map_eq_some_iff.1 hread
      obtain ⟨rfl, rfl⟩ := Prod.mk.inj he
      refine ⟨_, .named hquote (Text.not_mem_of_cut? hcut) hnames, ?_⟩
      rw [Text.after?_eq_some_iff.1 h₃, Text.cut?_eq_some hcut] at hs₁
      rw [← hs₁]
      simp only [List.append_assoc]
      rfl
    · obtain ⟨rest, hread, he⟩ := Option.map_eq_some_iff.1 hend
      obtain ⟨rfl, rfl⟩ := Prod.mk.inj he
      refine ⟨_, .plain hquote, ?_⟩
      rw [Text.after?_eq_some_iff.1 hread] at hs₁
      rw [← hs₁]
      simp only [List.append_assoc]
      rfl
  · obtain ⟨rest, hread, he⟩ := Option.map_eq_some_iff.1 h
    obtain ⟨rfl, rfl⟩ := Prod.mk.inj he
    exact ⟨_, .closing, Text.after?_eq_some_iff.1 hread⟩

end Directive

/-! ## Includes between loop tags -/

/-- A loop tag begins in this text that would go on behind it, with a brace. -/
def LoopTag.Pending (pre : Chars) : Prop :=
  ∃ w more mark rest, w ≠ [] ∧ w <:+ pre ∧ Directive.readLoop (w ++ '\x7b' :: more) = some (mark, rest) ∧
    rest.length ≤ more.length

/-- Nothing of a loop tag is left behind it. -/
theorem Directive.LoopText.not_pending {used : Chars} {mark : Directive.LoopMark}
    (h : Directive.LoopText used mark) (hbrace : '\x7b' ∉ used.tail) : ¬ LoopTag.Pending used := by
  rintro ⟨w, more, mark', rest, hw, hsuffix, hread, hlen⟩
  have hwhole : w = used := by
    cases used with
    | nil => exact absurd (List.suffix_nil.1 hsuffix) hw
    | cons c cs =>
      rcases List.suffix_cons_iff.1 hsuffix with he | htail
      · exact he
      · obtain ⟨d, ds, rfl⟩ := List.exists_cons_of_ne_nil hw
        have hopens := Directive.tag_readLoop.opens hread
        rw [List.cons_append, List.head?_cons, Option.some.injEq] at hopens
        exact absurd (htail.mem (hopens ▸ List.mem_cons_self)) hbrace
  rw [hwhole, h.readLoop_append, Option.some.injEq, Prod.mk.injEq] at hread
  rw [← hread.2, List.length_cons] at hlen
  omega

namespace Translator

open Directive (readInclude readLoop LoopText exists_loopText)
open LoopTag (directions directions_cons_of_none directions_of_some)

/-- The includes of a text stand apart from its loop tags: no name of a file has an opening brace, and no loop tag
that begins in front of an include could go on with it or with what is written for it. -/
def IncludesApart (s : Chars) : Prop :=
  ∀ pre v file rest, s = pre ++ v → readInclude v = some (file, rest) → '\x7b' ∉ file ∧ ¬ LoopTag.Pending pre

theorem IncludesApart.of_append {pre s : Chars} (h : IncludesApart (pre ++ s)) : IncludesApart s := by
  intro pre' v file rest hs hread
  obtain ⟨hfile, hpending⟩ := h (pre ++ pre') v file rest (by rw [hs, List.append_assoc]) hread
  refine ⟨hfile, fun ⟨w, more, mark, rest', hw, hsuffix, hread', hlen⟩ => hpending ?_⟩
  exact ⟨w, more, mark, rest', hw, hsuffix.trans (List.suffix_append _ _), hread', hlen⟩

/-- A text with its includes written. -/
def writeIncludes (t : Translator) (s : Chars) : Chars := Text.substitute (emitting readInclude t.emitInclude) s

section
variable (t : Translator)

theorem writeIncludes_of_read {s file rest : Chars} (h : readInclude s = some (file, rest)) :
    t.writeIncludes s = t.emitInclude file ++ t.writeIncludes rest := by
  have hfind : emitting readInclude t.emitInclude s = some (t.emitInclude file, rest) := by
    rw [emitting, h, Option.map_some]
  exact Text.substitute_of_some hfind (Directive.tag_readInclude.length_lt h)

theorem writeIncludes_append_of_none {u s : Chars} (h : ∀ v, v ≠ [] → v <:+ u → readInclude (v ++ s) = none) :
    t.writeIncludes (u ++ s) = u ++ t.writeIncludes s :=
  Text.substitute_append_of_none fun v hv hsuffix => by rw [emitting, h v hv hsuffix, Option.map_none]

/-- A text has no include, or one that is its first. -/
theorem writeIncludes_cases (s : Chars) :
    t.writeIncludes s = s ∨ ∃ pre v file rest, s = pre ++ v ∧ readInclude v = some (file, rest) ∧
      t.writeIncludes s = pre ++ (t.emitInclude file ++ t.writeIncludes rest) := by
  induction s with
  | nil => exact .inl (Text.substitute_nil _)
  | cons c cs ih =>
    cases h : readInclude (c :: cs) with
    | some r => exact .inr ⟨[], c :: cs, r.1, r.2, rfl, h, t.writeIncludes_of_read h⟩
    | none =>
      have hcons : t.writeIncludes (c :: cs) = c :: t.writeIncludes cs :=
        Text.substitute_cons_of_none (by rw [emitting, h, Option.map_none])
      rw [hcons]
      rcases ih with hsame | ⟨pre, v, file, rest, hs, hread, hout⟩
      · exact .inl (by rw [hsame])
      · exact .inr ⟨c :: pre, v, file, rest, by rw [hs]; rfl, hread, by rw [hout]; rfl⟩

theorem exists_emitInclude (file : Chars) : ∃ more, t.emitInclude file = '\x7b' :: more := by
  unfold emitInclude
  cases t.dialect <;> split <;> try split
  all_goals exact ⟨_, rfl⟩

theorem directions_append_of_copies {w : Chars} (h : (Pass.loops t).Copies w) (s : Chars) :
    directions (w ++ s) = directions s :=
  LoopTag.directions_append_of_none fun v hv hsuffix => h v hv hsuffix s

theorem copies_include {file : Chars} (h : '\x7b' ∉ file) :
    (Pass.loops t).Copies ("\x7binclude=\x22".toList ++ (file ++ "\x22\x7d".toList)) := by
  refine Pass.Copies.brace (w := "include=\x22".toList ++ (file ++ "\x22\x7d".toList)) (fun s => rfl) ?_
  simp [h]

variable {t}

/-- A tag that is read behind the first characters of a text is still read where includes behind it are written. -/
theorem readLoop_writeIncludes {c : Char} {cs : Chars} (hapart : IncludesApart (c :: cs))
    (hread : readLoop (c :: cs) = none) : readLoop (c :: t.writeIncludes cs) = none := by
  rcases t.writeIncludes_cases cs with hsame | ⟨pre, v, file, rest, rfl, hinclude, hout⟩
  · rw [hsame, hread]
  obtain ⟨more, hmore⟩ := t.exists_emitInclude file
  rw [hout, hmore]
  rw [Option.eq_none_iff_forall_ne_some]
  rintro ⟨mark, rest'⟩ hread'
  by_cases hlen : rest'.length ≤ (more ++ t.writeIncludes rest).length
  · exact (hapart (c :: pre) v file rest rfl hinclude).2
      ⟨c :: pre, _, mark, rest', List.cons_ne_nil c pre, List.suffix_refl _, hread', hlen⟩
  · obtain ⟨used, htext, hs⟩ := exists_loopText hread'
    have hstart : used <+: c :: pre := by
      have hall : used <+: (c :: pre) ++ ('\x7b' :: (more ++ t.writeIncludes rest)) := ⟨rest', hs.symm⟩
      refine List.prefix_of_prefix_length_le hall (List.prefix_append _ _) ?_
      have := congrArg List.length hs
      simp only [List.length_cons, List.length_append] at this hlen ⊢
      omega
    obtain ⟨u, hu⟩ := hstart
    have : readLoop (c :: (pre ++ v)) = some (mark, u ++ v) := by
      rw [← List.cons_append, ← hu, List.append_assoc]
      exact htext.readLoop_append _
    rw [hread] at this
    cases this

/-- Writing includes that stand apart changes nothing about the loop tags. -/
theorem directions_writeIncludes (hext : Tagless t.extension) {s : Chars} (hapart : IncludesApart s) :
    directions (t.writeIncludes s) = directions s := by
  induction hn : s.length using Nat.strongRecOn generalizing s with
  | ind n ih =>
    cases s with
    | nil => rw [writeIncludes, Text.substitute_nil]
    | cons c cs =>
      rw [List.length_cons] at hn
      cases hinclude : readInclude (c :: cs) with
      | some r =>
        obtain ⟨file, rest⟩ := r
        have hlen := Directive.tag_readInclude.length_lt hinclude
        rw [List.length_cons] at hlen
        obtain ⟨hfile, -⟩ := hapart [] _ file rest rfl hinclude
        have hs := Directive.readArgument_eq_some (Option.filter_eq_some_iff.1 hinclude).1
        have hassoc : c :: cs = "\x7binclude=\x22".toList ++ (file ++ "\x22\x7d".toList) ++ rest := by
          rw [hs, List.append_assoc, List.append_assoc]
          rfl
        have hmem : Pass.loops t ∈ Stage.pipeline.flatMap t.passes := by simp [passes, Stage.pipeline]
        rw [t.writeIncludes_of_read hinclude,
          t.directions_append_of_copies ((silent_emitInclude hext hfile).copies hmem), hassoc,
          t.directions_append_of_copies (t.copies_include hfile)]
        exact ih rest.length (by omega) (IncludesApart.of_append (hassoc ▸ hapart)) rfl
      | none =>
        cases hread : readLoop (c :: cs) with
        | some r =>
          obtain ⟨mark, rest⟩ := r
          have hlen := Directive.tag_readLoop.length_lt hread
          rw [List.length_cons] at hlen
          obtain ⟨used, htext, hs⟩ := exists_loopText hread
          -- an include inside of the tag would be one that the tag goes on with
          have hnone : ∀ v, v ≠ [] → v <:+ used → readInclude (v ++ rest) = none := by
            rintro v hv ⟨pre, rfl⟩
            rw [Option.eq_none_iff_forall_ne_some]
            rintro ⟨file, rest'⟩ hr
            cases pre with
            | nil =>
              rw [List.nil_append] at hs
              rw [hs, hr] at hinclude
              cases hinclude
            | cons d ds =>
              obtain ⟨more, hmore⟩ : ∃ more, v ++ rest = '\x7b' :: more :=
                List.head?_eq_some_iff.1 (Directive.tag_readInclude.opens hr)
              refine (hapart (d :: ds) (v ++ rest) file rest' (by rw [hs, List.append_assoc]) hr).2
                ⟨d :: ds, more, mark, rest, List.cons_ne_nil d ds, List.suffix_refl _, ?_, ?_⟩
              · rw [← hmore, ← List.append_assoc, ← hs, hread]
              · have hlength := congrArg List.length hmore
                have hpos := List.length_pos_iff.2 hv
                rw [List.length_append, List.length_cons] at hlength
                omega
          rw [directions_of_some hread, hs, t.writeIncludes_append_of_none hnone,
            directions_of_some (htext.readLoop_append _), ih rest.length (by omega)
              (IncludesApart.of_append (hs ▸ hapart)) rfl]
        | none =>
          have hcons : t.writeIncludes (c :: cs) = c :: t.writeIncludes cs :=
            Text.substitute_cons_of_none (by rw [emitting, hinclude, Option.map_none])
          rw [hcons, directions_cons_of_none (readLoop_writeIncludes hapart hread), directions_cons_of_none hread]
          exact ih cs.length (by omega) (@IncludesApart.of_append [c] cs hapart) rfl

end

/-! ## The check and the depth -/

/-- The text in which a translation looks for loop tags. -/
def beforeLoops (t : Translator) (source : Chars) : Chars :=
  (t.runStages Stage.includes.upTo {} (Shelf.escape source)).1

/-- The loop stage of a translation keeps its depth: never below zero, and zero at its end. -/
structure KeepsDepth (t : Translator) (source : Chars) : Prop where
  nonneg : ∀ d, Text.Visits t.stepLoop 0 (t.beforeLoops source) d → 0 ≤ d
  closes : (t.runStages Stage.loops.upTo {} (Shelf.escape source)).2.depth = 0

variable (t : Translator) (source : Chars)

theorem beforeLoops_eq : t.beforeLoops source = t.writeIncludes (t.beforeIncludes source) := by
  have hpasses : Stage.includes.upTo.flatMap t.passes =
      Stage.verbatim.upTo.flatMap t.passes ++ [.plain Directive.tag_readInclude t.emitInclude] := rfl
  rw [beforeLoops, beforeIncludes, runStages_eq, runStages_eq, hpasses, Pass.runAll_append, Pass.runAll, Pass.runAll,
    Pass.run_plain]
  rfl

theorem depth_beforeLoops : (t.runStages Stage.includes.upTo {} (Shelf.escape source)).2.depth = 0 := by
  rw [runStages_eq]
  have hkeep (xs : List Pass) (hxs : ∀ x ∈ xs, ∀ p a, (x.write p a).2.depth = p.depth) (p : Progress) (s : Chars) :
      (Pass.runAll xs p s).2.depth = p.depth := by
    induction xs generalizing p s with
    | nil => rfl
    | cons x xs ih =>
      rw [Pass.runAll, ih fun y hy => hxs y (List.mem_cons_of_mem x hy)]
      refine Text.substituteFrom_invariant (P := fun q : Progress => q.depth = p.depth) (fun h hq => ?_) rfl s
      obtain ⟨a, -, -, hp⟩ := Pass.find_eq_some h
      rw [hp, hxs x List.mem_cons_self, hq]
  refine hkeep _ (fun x hx p a => ?_) {} _
  have hmem : x ∈ [entityPass, BlockKind.comment.pass t, BlockKind.ignored.pass t, BlockKind.verbatim.pass t,
      .plain Directive.tag_readInclude t.emitInclude] := hx
  simp only [List.mem_cons, List.not_mem_nil, or_false] at hmem
  rcases hmem with rfl | rfl | rfl | rfl | rfl <;> rfl

theorem depth_loops : (t.runStages Stage.loops.upTo {} (Shelf.escape source)).2.depth =
    LoopTag.rise (LoopTag.scan 1 (t.beforeLoops source)) := by
  have hpasses : Stage.loops.upTo.flatMap t.passes = Stage.includes.upTo.flatMap t.passes ++
      [Pass.loops t, Pass.fixed "break" "break", Pass.fixed "continue" "continue"] := rfl
  have hdepth := t.depth_beforeLoops source
  rw [runStages_eq] at hdepth
  rw [runStages_eq, hpasses, Pass.runAll_append]
  simp only [Pass.runAll, Pass.run_fixed, Pass.run_loops]
  rw [t.substituteFrom_stepLoop _ 1, hdepth, Int.zero_add, beforeLoops, runStages_eq]

/-- The depth is kept if the tags that the loop stage reads pair up. -/
theorem keepsDepth_iff : t.KeepsDepth source ↔ LoopTag.Bracketed (LoopTag.scan 1 (t.beforeLoops source)) := by
  rw [← LoopTag.balance_eq_ok_iff_bracketed, LoopTag.balance_eq_ok_iff, ← t.depth_loops source]
  constructor
  · rintro ⟨hnonneg, hcloses⟩
    refine ⟨fun front hfront => ?_, by simpa using hcloses⟩
    have := hnonneg _ ((t.visits_stepLoop_iff 0 1 _ _).2 ⟨front, hfront, rfl⟩)
    simpa using this
  · rintro ⟨hfronts, hcloses⟩
    refine ⟨fun d hd => ?_, by simpa using hcloses⟩
    obtain ⟨front, hfront, rfl⟩ := (t.visits_stepLoop_iff 0 1 _ _).1 hd
    simpa using hfronts front hfront

theorem checkBalance_iff :
    checkBalance source = .ok () ↔ LoopTag.Bracketed (LoopTag.scan 1 (t.beforeIncludes source)) := by
  rw [t.scan_beforeIncludes, checkBalance, LoopTag.balance_eq_ok_iff_bracketed]

/-- The loop stage keeps its depth exactly if the tags that it reads pair up, the check passes exactly if those in
front of the includes do, and both are the same where the includes stand apart from the loop tags. -/
theorem checkBalance_depth :
    (t.KeepsDepth source ↔ LoopTag.Bracketed (LoopTag.scan 1 (t.beforeLoops source))) ∧
      (checkBalance source = .ok () ↔ LoopTag.Bracketed (LoopTag.scan 1 (t.beforeIncludes source))) ∧
      (Tagless t.extension → IncludesApart (t.beforeIncludes source) →
        (checkBalance source = .ok () ↔ t.KeepsDepth source)) := by
  refine ⟨t.keepsDepth_iff source, t.checkBalance_iff source, fun hext hapart => ?_⟩
  have hdirections := directions_writeIncludes hext hapart
  rw [← t.beforeLoops_eq] at hdirections
  rw [t.keepsDepth_iff, t.checkBalance_iff, ← LoopTag.balance_eq_ok_iff_bracketed,
    ← LoopTag.balance_eq_ok_iff_bracketed]
  exact LoopTag.balance_ok_congr hdirections.symm

/-- An include inside of a loop. -/
theorem checkBalance_depth_include :
    let t : Translator := ⟨.twig, "html".toList⟩
    let source := "\x7bloop=\x22$r\x22\x7d\x7binclude=\x22a\x22\x7d\x7b/loop\x7d".toList
    Tagless t.extension ∧ IncludesApart (t.beforeIncludes source) ∧ checkBalance source = .ok () ∧
      t.KeepsDepth source := by
  intro t source
  have hext : Tagless t.extension := by decide
  have hbefore : t.beforeIncludes source = source := by decide +kernel
  have hcheck : checkBalance source = .ok () := by decide +kernel
  have hapart : IncludesApart (t.beforeIncludes source) := by
    rw [hbefore]
    intro pre v file rest hs hread
    have honly : ∀ v ∈ source.tails, (readInclude v).isSome → v = source.drop 11 := by decide +kernel
    obtain rfl := honly v ((List.mem_tails v source).2 ⟨pre, hs.symm⟩) (by rw [hread]; rfl)
    have hpre : pre = "\x7bloop=\x22$r\x22\x7d".toList :=
      List.append_cancel_right (hs.symm.trans (List.take_append_drop 11 source).symm)
    have htext : LoopText pre (Directive.loopMark "$r".toList none) := by
      rw [hpre]
      exact .plain (show '\x22' ∉ "$r".toList by decide)
    refine ⟨?_, htext.not_pending (by rw [hpre]; decide)⟩
    have hfile : readInclude (source.drop 11) = some ("a".toList, "\x7b/loop\x7d".toList) := by decide +kernel
    rw [hfile] at hread
    cases hread
    decide
  exact ⟨hext, hapart, hcheck, ((t.checkBalance_depth source).2.2 hext hapart).1 hcheck⟩

end Translator
end ViewBridge
