import ViewBridge.Proofs.Item.Basic
import ViewBridge.Proofs.Item.Silence
import ViewBridge.Proofs.Exposure
/-!
# Items under the passes

Each item is read as a whole by one pass, and every pass in front of that one copies it, whatever follows.
What the pass writes is silent, so the passes behind copy that.

Results:
* `Item.copies_early`: the early passes copy every tag.
* `BlockKind.copies_source`: what the early passes copy of a block.
* `Item.runAll_latePasses`: the late passes make of an item its translation.
-/
namespace ViewBridge.Text

/-- A text is cut behind a part that does not have the first character of the separator. -/
theorem cut?_append_of_not_mem {c : Char} {cs s : Chars} (hc : c ∉ s) (t : Chars) :
    cut? (c :: cs) (s ++ (c :: cs ++ t)) = some (s, t) := by
  induction s with
  | nil => rw [List.nil_append, List.cons_append, cut?, ← List.cons_append, after?_append]
  | cons d ds ih =>
    rw [List.mem_cons, not_or] at hc
    have hnone : after? (c :: cs) (d :: (ds ++ (c :: cs ++ t))) = none := by simp [after?, hc.1]
    rw [List.cons_append, cut?, hnone]
    simp only [ih hc.2, Option.map_some]

/-- A span stops at the first character of another kind. -/
theorem span_append_cons {p : Char → Bool} {q : Char} {s : Chars} (hs : ∀ c ∈ s, p c = true) (hq : p q = false)
    (t : Chars) : (s ++ q :: t).takeWhile p = s ∧ (s ++ q :: t).dropWhile p = q :: t := by
  rw [takeWhile_append_cons hq, dropWhile_append_cons hq, takeWhile_eq_self hs, dropWhile_eq_nil hs]
  exact ⟨rfl, rfl⟩

end ViewBridge.Text

namespace ViewBridge

/-- What is carried on behind something that changes the loop depth. -/
def Progress.turned (p : Progress) (turn : Int) : Progress := { p with depth := p.depth + turn }

namespace Translator

open Directive

/-! ## What the readers read -/

theorem readArgument_append (lead : Chars) {body : Chars} (h : '\x22' ∉ body) (t : Chars) :
    readArgument lead (lead ++ (body ++ "\x22\x7d".toList) ++ t) = some (body, t) := by
  have hspan := Text.span_append_cons (p := (· != '\x22')) (s := body) (q := '\x22')
    (fun c hc => bne_iff_ne.2 fun he => h (he ▸ hc)) rfl ('\x7d' :: t)
  have hsplit : body ++ "\x22\x7d".toList ++ t = body ++ '\x22' :: '\x7d' :: t := by simp
  rw [readArgument, List.append_assoc, Text.after?_append, hsplit]
  simp only [Option.bind_eq_bind, Option.bind_some, hspan.1, hspan.2]
  rfl

/-- The body of a variable tag starts with a sigil. -/
theorem exists_eq_of_startsVariable {body : Chars} (h : startsVariable body = true) : ∃ rest, body = '$' :: rest := by
  cases body with
  | nil => cases h
  | cons c cs =>
    have hc := (Bool.and_eq_true_iff.1 h).1
    rw [List.head?_cons, beq_iff_eq, Option.some.injEq] at hc
    exact ⟨cs, by rw [hc]⟩

theorem readVariable_append {body : Chars} (hstart : startsVariable body = true) (h : Unbraced body) (t : Chars) :
    readVariable ('\x7b' :: (body ++ ['\x7d']) ++ t) = some (body, t) := by
  have hspan := Text.span_append_cons (p := fun c => !(c == '\x7b' || c == '\x7d')) (s := body) (q := '\x7d')
    (fun c hc => by
      have ho : c ≠ '\x7b' := fun he => h.1 (he ▸ hc)
      have hcl : c ≠ '\x7d' := fun he => h.2 (he ▸ hc)
      simp [ho, hcl]) rfl t
  have hsplit : '\x7b' :: (body ++ ['\x7d']) ++ t = "\x7b".toList ++ (body ++ '\x7d' :: t) := by simp
  have hend : Text.after? "\x7d".toList ('\x7d' :: t) = some t := rfl
  rw [readVariable_eq, hsplit, Text.after?_append, Option.bind_some, hspan.1, hspan.2, hend, Option.bind_some,
    if_pos hstart]

theorem readVariable_eq_none {c : Char} (hc : c ≠ '$') (s : Chars) : readVariable ('\x7b' :: c :: s) = none := by
  cases hread : readVariable ('\x7b' :: c :: s) with
  | none => rfl
  | some r =>
    obtain ⟨rest, hrest⟩ := exists_eq_of_readVariable hread
    rw [List.cons.injEq, List.cons.injEq] at hrest
    exact absurd hrest.2.1 hc

theorem IsIdentifier.ne_nil {name : Chars} (h : IsIdentifier name) : name ≠ [] := by
  rintro rfl
  cases h.1

theorem IsIdentifier.not_mem {name : Chars} (h : IsIdentifier name) {c : Char} (hc : Text.isNameChar c = false) :
    c ∉ name := fun hm => by
  have hname := h.2 c hm
  rw [hc] at hname
  cases hname

theorem readConstant_append {name : Chars} (h : IsIdentifier name) (t : Chars) :
    readConstant ('\x7b' :: '#' :: (name ++ ['#', '\x7d']) ++ t) = some (name, t) := by
  have hspan := Text.span_append_cons (q := '#') h.2 rfl ('\x7d' :: t)
  have hsplit : '\x7b' :: '#' :: (name ++ ['#', '\x7d']) ++ t = "\x7b#".toList ++ (name ++ '#' :: '\x7d' :: t) := by
    simp
  rw [readConstant, hsplit, Text.after?_append]
  simp only [Option.bind_eq_bind, Option.bind_some, hspan.1, hspan.2]
  have hend : Text.after? "#\x7d".toList ('#' :: '\x7d' :: t) = some t := rfl
  rw [hend, Option.some_or, Option.bind_some, if_pos h.1]

/-- What is bound stands between ` as ` and the brace that closes the tag. -/
theorem readLoopEnd_append {inner : Chars} {found : Chars × Option Chars} (h : '\x7d' ∉ inner)
    (hfound : bindingTexts inner = some found) (t : Chars) :
    readLoopEnd (" as ".toList ++ inner ++ '\x7d' :: t) = some (some found, t) := by
  have hcut : Text.cut? "\x7d".toList (inner ++ '\x7d' :: t) = some (inner, t) :=
    Text.cut?_append_of_not_mem h t
  have hread : readBindings (" as ".toList ++ inner ++ '\x7d' :: t) = some (found, t) := by
    rw [readBindings_eq, List.append_assoc, Text.after?_append, Option.bind_some, hcut, Option.bind_some]
    simp only [hfound, Option.map_some]
  rw [readLoopEnd, hread]
  rfl

/-- The names of a loop are read up to the brace that closes the tag. -/
theorem readLoopEnd_names {names : LoopNames} (h : ∀ name ∈ names.names, IsIdentifier name) (collection t : Chars) :
    (readLoopEnd (names.source ++ '\x7d' :: t)).map (fun (found, rest) => (loopMark collection found, rest)) =
      some (.opening (names.header collection), t) := by
  have hclose {name : Chars} (hname : IsIdentifier name) : '\x7d' ∉ name := hname.not_mem rfl
  have hbreak {name : Chars} (hname : IsIdentifier name) : '\n' ∉ name := hname.not_mem rfl
  have hblank {name : Chars} (hname : IsIdentifier name) : ' ' ∉ name := hname.not_mem rfl
  cases names with
  | numbered => rfl
  | single name =>
    have hname := h name List.mem_cons_self
    have hcut : Text.cut? " => $".toList name = none :=
      (Text.cut?_eq_none_iff (by decide) _).2 fun hi => hblank hname (hi.mem (by decide))
    have htexts : bindingTexts ('$' :: name) = some ('$' :: name, none) := by
      have hline : ('$' :: name).contains '\n' = false := by simp [hbreak hname]
      simp only [bindingTexts, hline, hcut, Bool.false_eq_true, if_false]
    have hread := readLoopEnd_append (by simp [hclose hname]) htexts t
    rw [show (LoopNames.single name).source = " as ".toList ++ '$' :: name from rfl, hread]
    rfl
  | pair key element =>
    have hkey := h key List.mem_cons_self
    have helement := h element (List.mem_cons_of_mem _ List.mem_cons_self)
    have hcut : Text.cut? " => $".toList (key ++ (" => $".toList ++ element)) = some (key, element) :=
      Text.cut?_append_of_not_mem (hblank hkey) element
    have htexts : bindingTexts ('$' :: (key ++ (" => $".toList ++ element))) =
        some ('$' :: key, some ('$' :: element)) := by
      have hline : ('$' :: (key ++ (" => $".toList ++ element))).contains '\n' = false := by
        simp [hbreak hkey, hbreak helement]
      simp only [bindingTexts, hline, hcut, Bool.false_eq_true, if_false]
    have hread := readLoopEnd_append (by simp [hclose hkey, hclose helement]) htexts t
    rw [show (LoopNames.pair key element).source =
      " as ".toList ++ '$' :: (key ++ (" => $".toList ++ element)) from rfl, hread]
    rfl

theorem readLoop_append {collection : Chars} {names : LoopNames} (h : '\x22' ∉ collection)
    (hnames : ∀ name ∈ names.names, IsIdentifier name) (t : Chars) :
    readLoop (loopLead ++ (collection ++ '\x22' :: (names.source ++ ['\x7d'])) ++ t) =
      some (.opening (names.header collection), t) := by
  have hspan := Text.span_append_cons (p := (· != '\x22')) (s := collection) (q := '\x22')
    (fun c hc => bne_iff_ne.2 fun he => h (he ▸ hc)) rfl (names.source ++ '\x7d' :: t)
  have hsplit : loopLead ++ (collection ++ '\x22' :: (names.source ++ ['\x7d'])) ++ t =
      loopLead ++ (collection ++ '\x22' :: (names.source ++ '\x7d' :: t)) := by
    simp only [List.append_assoc, List.cons_append, List.nil_append]
  have hlead (s : Chars) : Text.after? "\x7bloop=\x22".toList (loopLead ++ s) = some s := Text.after?_append _ _
  have hend : Text.after? "\x22".toList ('\x22' :: (names.source ++ '\x7d' :: t)) =
      some (names.source ++ '\x7d' :: t) := rfl
  rw [readLoop_eq, hsplit, hlead, Option.bind_some, hspan.1, hspan.2, hend, Option.bind_some,
    readLoopEnd_names hnames, Option.some_or]

/-! ## Tags and the passes in front of theirs -/

/-- The items that are tags: all but text and blocks. -/
def Item.IsTag : Item → Prop
  | .text _ | .block _ _ => False
  | _ => True

theorem LoopNames.brace_not_mem_source {names : LoopNames} (h : ∀ name ∈ names.names, IsIdentifier name) :
    '\x7b' ∉ names.source := by
  have hname {name : Chars} (hm : name ∈ names.names) : '\x7b' ∉ name := (h name hm).not_mem rfl
  cases names with
  | numbered => exact List.not_mem_nil
  | single name =>
    exact List.not_mem_append (by decide) (hname List.mem_cons_self)
  | pair key element =>
    exact List.not_mem_append (by decide) (List.not_mem_append (hname List.mem_cons_self)
      (List.not_mem_append (by decide) (hname (List.mem_cons_of_mem _ List.mem_cons_self))))

/-- A tag has one brace that opens, at its start. -/
theorem Item.exists_source_eq {i : Item} (h : i.WellFormed) (htag : i.IsTag) :
    ∃ w, i.source = '\x7b' :: w ∧ '\x7b' ∉ w := by
  have hclose : '\x7b' ∉ ['\x7d'] := by decide
  cases i with
  | text s => exact htag.elim
  | var body => exact ⟨body ++ ['\x7d'], rfl, List.not_mem_append h.2.1 hclose⟩
  | argument k body =>
    obtain ⟨lead, hlead, hbrace⟩ : ∃ lead, k.lead = '\x7b' :: lead ∧ '\x7b' ∉ lead := by
      cases k <;> exact ⟨_, rfl, by decide⟩
    refine ⟨lead ++ (body ++ "\x22\x7d".toList), by simp only [source_argument, hlead, List.cons_append], ?_⟩
    exact List.not_mem_append hbrace (List.not_mem_append h.2.1.1 (by decide))
  | fixed k => cases k <;> exact ⟨_, rfl, by decide⟩
  | loop collection names =>
    refine ⟨"loop=\x22".toList ++ (collection ++ '\x22' :: (names.source ++ ['\x7d'])), rfl, ?_⟩
    have hnames := LoopNames.brace_not_mem_source h.2.2
    exact List.not_mem_append (by decide) (List.not_mem_append h.2.1.1
      (List.not_mem_cons_of_ne_of_not_mem (by decide) (List.not_mem_append hnames hclose)))
  | endLoop => exact ⟨"/loop\x7d".toList, rfl, by decide⟩
  | constant name =>
    have hname : '\x7b' ∉ name := h.not_mem rfl
    exact ⟨'#' :: (name ++ ['#', '\x7d']), rfl, List.not_mem_cons_of_ne_of_not_mem (by decide)
      (List.not_mem_append hname (by decide))⟩
  | block k body => exact htag.elim

/-- A tag is copied by a pass that does not read it. -/
theorem Item.copies_of_read {i : Item} (h : i.WellFormed) (htag : i.IsTag) {x : Pass}
    (hx : ∀ s, x.read (i.source ++ s) = none) : x.Copies i.source := by
  obtain ⟨w, hw, hbrace⟩ := i.exists_source_eq h htag
  rw [hw] at hx ⊢
  exact .brace hx hbrace

/-- The pass over entities and those over blocks copy every tag. -/
theorem Item.copies_early {t : Translator} {i : Item} (h : i.WellFormed) (htag : i.IsTag) :
    entityPass.Copies i.source ∧ ∀ k : BlockKind, (k.pass t).Copies i.source := by
  have hread : (∀ s, entityPass.read (i.source ++ s) = none) ∧
      ∀ (k : BlockKind) s, k.read (i.source ++ s) = none := by
    cases i with
    | text s => exact htag.elim
    | var body =>
      obtain ⟨rest, rfl⟩ := exists_eq_of_startsVariable h.1
      exact ⟨fun _ => rfl, fun k _ => by cases k <;> rfl⟩
    | argument k body => cases k <;> exact ⟨fun _ => rfl, fun j _ => by cases j <;> rfl⟩
    | fixed k => cases k <;> exact ⟨fun _ => rfl, fun j _ => by cases j <;> rfl⟩
    | loop collection names => exact ⟨fun _ => rfl, fun k _ => by cases k <;> rfl⟩
    | endLoop => exact ⟨fun _ => rfl, fun k _ => by cases k <;> rfl⟩
    | constant name => exact ⟨fun _ => rfl, fun k _ => by cases k <;> rfl⟩
    | block k body => exact htag.elim
  exact ⟨copies_of_read h htag hread.1, fun k => copies_of_read h htag (hread.2 k)⟩

/-- How many late passes run before the one that reads an item. -/
def Item.rank : Item → Nat
  | .argument .inclusion _ => 0
  | .loop .. | .endLoop => 1
  | .fixed .leave => 2
  | .fixed .next => 3
  | .argument .condition _ | .argument .longCondition _ => 4
  | .argument .alternative _ => 5
  | .fixed .otherwise => 6
  | .fixed .endIf => 7
  | .var _ => 8
  | .argument .call _ => 9
  | .constant _ => 10
  | .text _ | .block .. => 0

/-- The late passes in front of that of a tag copy the tag. -/
theorem Item.copies_late {t : Translator} {i : Item} (h : i.WellFormed) (htag : i.IsTag) :
    ∀ x ∈ t.latePasses.take i.rank, x.Copies i.source := by
  have hread : ∀ x ∈ t.latePasses.take i.rank, ∀ s, x.read (i.source ++ s) = none := by
    cases i
    case text s => exact htag.elim
    case block k body => exact htag.elim
    case' var body => obtain ⟨rest, rfl⟩ := exists_eq_of_startsVariable h.1
    case' argument k body => cases k
    case' fixed k => cases k
    -- each pass in front asks for another character behind the brace, or for another word
    all_goals
      simp only [rank, latePasses, passes, List.flatMap_cons, List.flatMap_nil, List.cons_append, List.nil_append,
        List.take_succ_cons, List.take_zero, List.forall_mem_cons, List.not_mem_nil, false_implies, implies_true,
        and_true]
      repeat' apply And.intro
      all_goals first | exact fun _ => rfl | exact fun _ => readVariable_eq_none (by decide) _
  exact fun x hx => copies_of_read h htag (hread x hx)

/-! ## Blocks and the passes in front of theirs -/

namespace BlockKind

/-- A block is copied by a pass that reads neither of its markers and nothing from its body on. -/
theorem copies_source {x : Pass} {k : BlockKind} {body : Chars} (hopening : ∀ s, x.read (k.opening ++ s) = none)
    (hclosing : ∀ s, x.read (k.closing ++ s) = none)
    (hbody : ∀ u, u ≠ [] → u <:+ body → ∀ s, x.read (u ++ (k.closing ++ s)) = none) :
    x.Copies (k.source body) := by
  intro v hv hsuffix t
  rcases Text.suffix_append_cases hsuffix with hinner | ⟨u, hu, hstart, rfl⟩
  · rcases Text.suffix_append_cases hinner with hend | ⟨u, hu, hinside, rfl⟩
    · exact k.marker_closing.read_eq_none hclosing hv hend t
    · rw [List.append_assoc]
      exact hbody u hu hinside t
  · rw [List.append_assoc]
    exact k.marker_opening.read_eq_none hopening hu hstart _

/-- The pass over entities copies a block without an entity quote. -/
theorem copies_entityPass (k : BlockKind) {body : Chars} (h : ¬ "&quot;".toList <:+: body) :
    entityPass.Copies (k.source body) := by
  refine copies_source (inside_entityPass k).opening (inside_entityPass k).closing ?_
  intro u hu hinside s
  obtain ⟨c, rest, hclosing, hstop⟩ := k.entityStop_closing
  rw [hclosing, List.cons_append]
  cases hread : entityPass.read (u ++ c :: (rest ++ s)) with
  | none => rfl
  | some r =>
    obtain ⟨⟨name, value⟩, tail⟩ := r
    obtain ⟨d, ds, rfl⟩ := List.exists_cons_of_ne_nil hu
    have hc : c ∉ name ++ "=&quot;".toList := by
      refine List.not_mem_append (fun hm => hstop.name (lower_of_readEntityTag hread c hm)) fun hm => hstop.marks ?_
      exact List.mem_append_left ['\x7d'] hm
    have hlead : '\x7b' :: (name ++ "=&quot;".toList) <+: d :: (ds ++ c :: (rest ++ s)) := by
      have hs := readEntityTag_eq_some hread
      rw [List.cons_append, List.append_assoc, List.append_assoc] at hs
      rw [hs]
      exact List.prefix_append _ _
    rw [List.cons_prefix_cons] at hlead
    have hquote := (Text.prefix_of_prefix_append_cons hc hlead.2).isInfix.trans (List.suffix_cons d ds).isInfix
    exact absurd (((List.infix_append_of_infix_right (List.infix_cons (List.infix_refl _))).trans hquote).trans
      hinside.isInfix) h

/-- The pass over a kind of blocks copies a block of another kind that has no opening of the first. -/
theorem copies_pass (t : Translator) {j k : BlockKind} (hjk : j ≠ k) {body : Chars} (h : ¬ j.opening <:+: body) :
    (j.pass t).Copies (k.source body) := by
  have hread : (∀ s, j.read (k.opening ++ s) = none) ∧ ∀ s, j.read (k.closing ++ s) = none := by
    cases j <;> cases k <;> first | exact absurd rfl hjk | exact ⟨fun _ => rfl, fun _ => rfl⟩
  refine copies_source hread.1 hread.2 fun u hu hinside s => ?_
  obtain ⟨c, rest, hclosing, hc⟩ : ∃ c rest, k.closing = c :: rest ∧ c ∉ j.opening.tail := by
    cases j <;> cases k <;> first | exact absurd rfl hjk | exact ⟨_, _, rfl, by decide⟩
  rw [hclosing, List.cons_append]
  exact j.read_append_eq_none hu hinside h hc (rest ++ s)

end BlockKind

/-! ## Tags under the late passes -/

/-- Where a text is read as a whole, its translation stands in its place, if the passes in front copy the text
and those behind copy the translation. -/
theorem Pass.runAll_of_read {xs ys : List Pass} {x : Pass} {w out : Chars} {a : x.Body}
    (hfront : ∀ y ∈ xs, y.Copies w) (hread : ∀ t, x.read (w ++ t) = some (a, t))
    (hwrite : ∀ p, x.write p a = (out, p)) (hbehind : ∀ y ∈ ys, y.Copies out) (p : Progress) (t : Chars) :
    Pass.runAll (xs ++ x :: ys) p (w ++ t) =
      (out ++ (Pass.runAll (xs ++ x :: ys) p t).1, (Pass.runAll (xs ++ x :: ys) p t).2) := by
  have hrun (p : Progress) (t : Chars) : x.run p (w ++ t) = (out ++ (x.run p t).1, (x.run p t).2) := by
    rw [x.run_of_read (hread t), hwrite]
  simp only [Pass.runAll_append, Pass.Copies.runAll hfront, Pass.runAll, hrun, Pass.Copies.runAll hbehind]

/-- A loop tag is translated at the depth that it opens or closes. -/
theorem runAll_latePasses_of_readLoop {t : Translator} {w : Chars} (mark : LoopMark)
    (hfront : (Pass.plain tag_readInclude t.emitInclude).Copies w)
    (hread : ∀ s, readLoop (w ++ s) = some (mark, s)) (p : Progress)
    (hout : Silent ((Pass.loops t).write p mark).1) (s : Chars) :
    Pass.runAll t.latePasses p (w ++ s) =
      (((Pass.loops t).write p mark).1 ++ (Pass.runAll t.latePasses ((Pass.loops t).write p mark).2 s).1,
        (Pass.runAll t.latePasses ((Pass.loops t).write p mark).2 s).2) := by
  have hlate (p : Progress) (s : Chars) : Pass.runAll t.latePasses p s =
      Pass.runAll (t.latePasses.drop 2)
        ((Pass.loops t).run p ((Pass.plain tag_readInclude t.emitInclude).run p s).1).2
        ((Pass.loops t).run p ((Pass.plain tag_readInclude t.emitInclude).run p s).1).1 := by
    have hstate : ((Pass.plain tag_readInclude t.emitInclude).run p s).2 = p := by rw [Pass.run_plain]
    rw [← congrArg (fun q => (Pass.loops t).run q _) hstate]
    rfl
  have hbehind : ∀ y ∈ t.latePasses.drop 2, y.Copies ((Pass.loops t).write p mark).1 := fun y hy =>
    hout.copies (mem_pipeline_of_mem_latePasses (List.mem_of_mem_drop hy))
  -- no include depends on what is carried on
  have hinclude (q q' : Progress) : ((Pass.plain tag_readInclude t.emitInclude).run q s).1 =
      ((Pass.plain tag_readInclude t.emitInclude).run q' s).1 := by simp only [Pass.run_plain]
  rw [hlate, hfront.run, (Pass.loops t).run_of_read (hread _), Pass.Copies.runAll hbehind, hlate,
    hinclude p ((Pass.loops t).write p mark).2]

/-- The translation of text and of tags is silent. -/
theorem Item.silent_output {t : Translator} (hext : Tagless t.extension) {i : Item} (h : i.WellFormed)
    (hblock : ∀ k body, i ≠ .block k body) (depth : Int) : Silent (i.output t depth) := by
  cases i with
  | text s => exact .of_not_mem h.1
  | var body => exact silent_emitVariable t h.2.1
  | argument k body =>
    cases k with
    | condition => exact silent_emitIf h.2.1.1
    | longCondition => exact silent_emitIf h.2.1.1
    | alternative => exact silent_emitElseif t h.2.1.1
    | inclusion => exact silent_emitInclude hext h.2.1.1
    | call => exact silent_emitFunction t h.2.1.1
  | fixed k => cases k <;> exact .tag (by decide)
  | loop collection names =>
    have hsigil {name : Chars} (hname : IsIdentifier name) : '\x7b' ∉ '$' :: name :=
      List.not_mem_cons_of_ne_of_not_mem (by decide) (hname.not_mem rfl)
    have hnames := h.2.2
    refine silent_emitLoop t depth ?_ ?_ ?_
    · cases names <;> exact h.2.1.1
    · cases names with
      | numbered => exact fun _ hkey => nomatch hkey
      | single name =>
        rintro _ ⟨⟩
        exact hsigil (hnames name List.mem_cons_self)
      | pair key element =>
        rintro _ ⟨⟩
        exact hsigil (hnames key List.mem_cons_self)
    · cases names with
      | numbered => exact fun _ hvalue => nomatch hvalue
      | single name => exact fun _ hvalue => nomatch hvalue
      | pair key element =>
        rintro _ ⟨⟩
        exact hsigil (hnames element (List.mem_cons_of_mem _ List.mem_cons_self))
  | endLoop => exact .tag (by decide)
  | constant name => exact silent_emitConstant (IsIdentifier.not_mem h rfl)
  | block k body => exact absurd rfl (hblock k body)

/-- The late passes make of text or of a tag its translation, and go on behind it. -/
theorem Item.runAll_latePasses {t : Translator} (hext : Tagless t.extension) {i : Item} (h : i.WellFormed)
    (hblock : ∀ k body, i ≠ .block k body) (p : Progress) (s : Chars) :
    Pass.runAll t.latePasses p (i.source ++ s) =
      (i.output t (p.depth + i.turn) ++ (Pass.runAll t.latePasses (p.turned i.turn) s).1,
        (Pass.runAll t.latePasses (p.turned i.turn) s).2) := by
  have hsilent := i.silent_output hext h hblock (p.depth + i.turn)
  have hcopies : ∀ y ∈ t.latePasses, y.Copies (i.output t (p.depth + i.turn)) := fun y hy =>
    hsilent.copies (mem_pipeline_of_mem_latePasses hy)
  have hbehind (n : Nat) : ∀ y ∈ t.latePasses.drop n, y.Copies (i.output t (p.depth + i.turn)) := fun y hy =>
    hcopies y (List.mem_of_mem_drop hy)
  have hstill (hturn : i.turn = 0) : p.turned i.turn = p := by simp [Progress.turned, hturn]
  have hfront (htag : i.IsTag) := i.copies_late (t := t) h htag
  cases i with
  | text s =>
    rw [hstill rfl]
    exact Pass.Copies.runAll (fun y _ => .of_not_mem h.1) p _
  | var body =>
    rw [hstill rfl]
    exact Pass.runAll_of_read (x := .plain tag_readVariable t.emitVariable) (hfront trivial)
      (readVariable_append h.1 h.2) (fun _ => rfl) (hbehind 9) p s
  | argument k body =>
    rw [hstill rfl]
    have hread (lead : Chars) := readArgument_append lead h.1
    cases k with
    | condition =>
      refine Pass.runAll_of_read (x := .plain tag_readIf emitIf) (a := body) (hfront trivial) ?_
        (fun _ => rfl) (hbehind 5) p s
      exact fun s => Option.or_eq_some_iff.2 (.inl (hread _ s))
    | longCondition =>
      refine Pass.runAll_of_read (x := .plain tag_readIf emitIf) (a := body) (hfront trivial) ?_
        (fun _ => rfl) (hbehind 5) p s
      exact fun s => Option.or_eq_some_iff.2 (.inr ⟨rfl, hread _ s⟩)
    | alternative =>
      exact Pass.runAll_of_read (x := .plain tag_readElseif t.emitElseif) (a := body) (hfront trivial)
        (hread _) (fun _ => rfl) (hbehind 6) p s
    | inclusion =>
      refine Pass.runAll_of_read (x := .plain tag_readInclude t.emitInclude) (a := body) (hfront trivial) ?_
        (fun _ => rfl) (hbehind 1) p s
      exact fun s => Option.filter_eq_some_iff.2 ⟨hread _ s, by simpa [ArgumentTag.mayBeEmpty] using h.2.2⟩
    | call =>
      refine Pass.runAll_of_read (x := .plain tag_readFunction t.emitFunction) (a := body) (hfront trivial) ?_
        (fun _ => rfl) (hbehind 10) p s
      exact fun s => Option.filter_eq_some_iff.2 ⟨hread _ s, by simpa [ArgumentTag.mayBeEmpty] using h.2.2⟩
  | fixed k =>
    rw [hstill rfl]
    have hread (s : Chars) : (Text.after? ('\x7b' :: k.legacy.toList ++ ['\x7d'])
        ((Item.fixed k).source ++ s)).map (fun rest => ((), rest)) = some ((), s) := by
      rw [Item.source_fixed, Text.after?_append, Option.map_some]
    cases k with
    | otherwise =>
      exact Pass.runAll_of_read (x := .fixed "else" "else") (a := ()) (hfront trivial) hread
        (fun _ => rfl) (hbehind 7) p s
    | endIf =>
      exact Pass.runAll_of_read (x := .fixed "/if" "endif") (a := ()) (hfront trivial) hread
        (fun _ => rfl) (hbehind 8) p s
    | leave =>
      exact Pass.runAll_of_read (x := .fixed "break" "break") (a := ()) (hfront trivial) hread
        (fun _ => rfl) (hbehind 3) p s
    | next =>
      exact Pass.runAll_of_read (x := .fixed "continue" "continue") (a := ()) (hfront trivial) hread
        (fun _ => rfl) (hbehind 4) p s
  | loop collection names =>
    exact runAll_latePasses_of_readLoop (.opening (names.header collection))
      (hfront trivial _ List.mem_cons_self) (readLoop_append h.1 h.2.2) p hsilent s
  | endLoop =>
    exact runAll_latePasses_of_readLoop .closing (hfront trivial _ List.mem_cons_self)
      (fun _ => rfl) p hsilent s
  | constant name =>
    rw [hstill rfl]
    exact Pass.runAll_of_read (x := .plain tag_readConstant emitConstant) (a := name) (hfront trivial)
      (readConstant_append h) (fun _ => rfl) (hbehind 11) p s
  | block k body => exact absurd rfl (hblock k body)

end Translator
end ViewBridge
