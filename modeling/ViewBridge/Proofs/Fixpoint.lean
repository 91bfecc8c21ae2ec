import ViewBridge.Proofs.Item.Silence
/-!
# Texts that a translator leaves alone

Where a pass reads something for the first time, it writes a text that differs from the tag it read at the
second character, or at the first quote of an argument. Whatever is read later, in front of that place or
behind it, leaves a difference too, and so does emptying the shelf. So a text is its own translation only if
no pass reads anything in it.

Results:
* `Pass.run_cases`: a pass reads nothing in a stretch, or there is a first tag.
* `Altered.run`: what was altered stays altered.
* `restore_ne_of_altered`: what was altered does not come back.
* `translate_eq_self_iff`: the texts that are their own translations.
-/
namespace ViewBridge.Translator

/-- No pass reads anything in the text, its literal shields as pairs. -/
def ReadsNothing (t : Translator) (s : Chars) : Prop :=
  ∀ x ∈ Stage.pipeline.flatMap t.passes, ∀ v, v <:+ Shelf.escape s → x.read v = none

/-! ## The first tag -/

/-- A pass reads nothing from a stretch on, or there is a first place in it where the pass reads. -/
theorem Pass.run_cases (x : Pass) (p : Progress) (u c : Chars) :
    (∀ v, v ≠ [] → v <:+ u → x.read (v ++ c) = none) ∨
      ∃ u₁ v a rest, u = u₁ ++ v ∧ v ≠ [] ∧ x.read (v ++ c) = some (a, rest) ∧
        x.run p (u ++ c) = (u₁ ++ ((x.write p a).1 ++ (x.run (x.write p a).2 rest).1),
          (x.run (x.write p a).2 rest).2) := by
  induction u with
  | nil => exact .inl fun v hv hsuffix => absurd (List.suffix_nil.1 hsuffix) hv
  | cons d ds ih =>
    cases hread : x.read (d :: ds ++ c) with
    | some r =>
      exact .inr ⟨[], d :: ds, r.1, r.2, rfl, List.cons_ne_nil d ds, hread, x.run_of_read hread p⟩
    | none =>
      rcases ih with hnone | ⟨u₁, v, a, rest, rfl, hv, hsome, hrun⟩
      · refine .inl fun v hv hsuffix => ?_
        rcases List.suffix_cons_iff.1 hsuffix with rfl | hsuffix
        · exact hread
        · exact hnone v hv hsuffix
      · refine .inr ⟨d :: u₁, v, a, rest, rfl, hv, hsome, ?_⟩
        have hfind : x.find p (d :: (u₁ ++ v ++ c)) = none := by
          rw [Pass.find, ← List.cons_append, hread, Option.map_none]
        have hcopy : x.run p (d :: (u₁ ++ v ++ c)) =
            (d :: (x.run p (u₁ ++ v ++ c)).1, (x.run p (u₁ ++ v ++ c)).2) := Text.substituteFrom_cons_of_none hfind
        rw [List.cons_append, hcopy, hrun]
        rfl

/-- A pass reads nothing in a text, or there is a first tag. -/
theorem Pass.run_cases_nil (x : Pass) (p : Progress) (s : Chars) :
    (∀ v, v <:+ s → x.read v = none) ∨
      ∃ u v a rest, s = u ++ v ∧ x.read v = some (a, rest) ∧
        x.run p s = (u ++ ((x.write p a).1 ++ (x.run (x.write p a).2 rest).1), (x.run (x.write p a).2 rest).2) := by
  have hcases := x.run_cases p s []
  simp only [List.append_nil] at hcases
  rcases hcases with hnone | ⟨u, v, a, rest, hs, -, hread, hrun⟩
  · refine .inl fun v hsuffix => ?_
    by_cases hv : v = []
    · rw [hv, x.tag.nil]
    · exact hnone v hv hsuffix
  · exact .inr ⟨u, v, a, rest, hs, hread, hrun⟩

/-! ## Differences -/

/-- A tag, with the text behind it, and what stands in its place after it was read. -/
inductive Differs (shelf : List Chars) : Chars → Chars → Prop where
  /-- A statement or an output of the target. -/
  | target {c d : Char} {o w : Chars} (hc : c = '%' ∨ c = '\x7b') (hd : c ≠ d) :
    Differs shelf ('\x7b' :: d :: o) ('\x7b' :: c :: ' ' :: w)
  /-- The placeholder of a text on the shelf. -/
  | placed {c d : Char} {n : Nat} {out o w body : Chars} (hshelf : shelf[n]? = some ('\x7b' :: c :: out))
      (hc : c ≠ Shelf.opening) (hd : c ≠ d) :
    Differs shelf ('\x7b' :: d :: o) (Shelf.placeholder n body ++ w)
  /-- A tag with real quotes for one with entity quotes. -/
  | quoted {name o w : Chars} (hname : ∀ c ∈ name, 'a' ≤ c ∧ c ≤ 'z') :
    Differs shelf ('\x7b' :: (name ++ '=' :: '&' :: o)) ('\x7b' :: (name ++ '=' :: '\x22' :: w))

/-- A text that was changed: behind a common start it differs. -/
def Altered (shelf : List Chars) (o c : Chars) : Prop :=
  ∃ u o' c', o = u ++ o' ∧ c = u ++ c' ∧ Differs shelf o' c'

/-- A pass that writes nothing like the tag it reads, whatever follows. -/
structure Pass.Alters (x : Pass) : Prop where
  keeps : ∀ p a, p.shelf <+: (x.write p a).2.shelf
  starts : ∀ {s a rest}, x.read s = some (a, rest) → startsTag s = true
  differs : ∀ {d s a rest}, x.read ('\x7b' :: d :: s) = some (a, rest) → ∀ p o w,
    Differs (x.write p a).2.shelf ('\x7b' :: d :: o) ((x.write p a).1 ++ w)

theorem exists_eq_of_startsTag {s : Chars} (h : startsTag s = true) :
    ∃ d w, s = '\x7b' :: d :: w ∧ d ≠ '%' ∧ d ≠ '\x7b' := by
  match s, h with
  | b :: d :: w, h =>
    rw [startsTag, Bool.and_eq_true, beq_iff_eq] at h
    obtain ⟨rfl, h⟩ := h
    refine ⟨d, w, rfl, ?_, ?_⟩
    · rintro rfl
      cases h
    · rintro rfl
      cases h

theorem Pass.Alters.shelf_prefix_run {x : Pass} (h : x.Alters) (p : Progress) (s : Chars) :
    p.shelf <+: (x.run p s).2.shelf := by
  refine Text.substituteFrom_invariant (P := fun q : Progress => p.shelf <+: q.shelf) ?_ (List.prefix_refl _) s
  intro q v out q' rest hf hq
  obtain ⟨a, -, -, rfl⟩ := Pass.find_eq_some hf
  exact hq.trans (h.keeps q a)

namespace Differs

variable {shelf : List Chars} {o c : Chars}

theorem mono {shelf' : List Chars} (hshelf : shelf <+: shelf') (h : Differs shelf o c) : Differs shelf' o c := by
  cases h with
  | target hc hd => exact .target hc hd
  | placed hplace hc hd =>
    obtain ⟨more, rfl⟩ := hshelf
    exact .placed ((List.getElem?_append_left (List.getElem?_eq_some_iff.1 hplace).1).trans hplace) hc hd
  | quoted hname => exact .quoted hname

/-- A brace in front of a difference starts no tag. -/
theorem startsTag_eq_false (h : Differs shelf o c) : startsTag ('\x7b' :: c) = false := by
  cases h with
  | target hc hd => rfl
  | placed hplace hc hd => rfl
  | quoted hname => rfl

/-- A pass leaves a difference. -/
theorem run {x : Pass} (hx : x.Alters) {p : Progress} (h : Differs p.shelf o c) :
    Differs (x.run p c).2.shelf o (x.run p c).1 := by
  have hgrows := hx.shelf_prefix_run p c
  have hcopies {w : Chars} (hw : '\x7b' ∉ w) : x.Copies w := .of_not_mem hw
  cases h with
  | @target b d o w hb hd =>
    have hsilent : Silent ['\x7b', b, ' '] := by
      rcases hb with rfl | rfl
      · exact .cons (fun _ => rfl) (.of_not_mem (by decide))
      · exact .cons (fun _ => rfl) (.cons (fun _ => rfl) (.of_not_mem (by decide)))
    have hrun := (hsilent.copies_of_startsTag hx.starts).run p w
    simp only [List.cons_append, List.nil_append] at hrun
    rw [hrun]
    exact .target hb hd
  | @placed b d n out o w body hplace hb hd =>
    have hbrace : '\x7b' ∉ Shelf.placeholder n body := by
      intro hm
      rcases Shelf.mem_placeholder hm with h | h | h | h <;> cases h
    rw [(hcopies hbrace).run] at hgrows ⊢
    exact (Differs.placed hplace hb hd).mono hgrows
  | @quoted name o w hname =>
    have hsplit (tail : Chars) : '\x7b' :: (name ++ '=' :: tail) = '\x7b' :: (name ++ ['=']) ++ tail := by simp
    obtain ⟨d, s, hs⟩ := List.exists_cons_of_ne_nil (show name ++ ['='] ≠ [] by simp)
    cases hread : x.read ('\x7b' :: (name ++ '=' :: '\x22' :: w)) with
    | some r =>
      rw [x.run_of_read (show _ = some (r.1, r.2) from hread)]
      rw [hsplit, hs] at hread ⊢
      exact (hx.differs (show _ = some (r.1, r.2) from hread) p _ _).mono (hx.shelf_prefix_run _ _)
    | none =>
      have hbrace : '\x7b' ∉ name ++ ['=', '\x22'] :=
        List.not_mem_append (fun hm => absurd (hname _ hm) (by decide)) (by decide)
      have hrun : x.run p ('\x7b' :: (name ++ ['=', '\x22']) ++ w) =
          ('\x7b' :: (name ++ ['=', '\x22']) ++ (x.run p w).1, (x.run p w).2) := by
        refine x.run_append_of_none p fun v hv hsuffix => ?_
        rcases List.suffix_cons_iff.1 hsuffix with rfl | hsuffix
        · rw [← hread]
          simp
        · exact hcopies hbrace v hv hsuffix w
      have hword : '\x7b' :: (name ++ ['=', '\x22']) ++ w = '\x7b' :: (name ++ '=' :: '\x22' :: w) := by simp
      rw [hword] at hrun
      rw [hrun]
      have hdiffers : Differs (x.run p w).2.shelf ('\x7b' :: (name ++ '=' :: '&' :: o))
          ('\x7b' :: (name ++ '=' :: '\x22' :: (x.run p w).1)) := .quoted hname
      simpa using hdiffers

end Differs

/-- What was altered stays altered. -/
theorem Altered.run {x : Pass} (hx : x.Alters) {p : Progress} {o c : Chars} (h : Altered p.shelf o c) :
    Altered (x.run p c).2.shelf o (x.run p c).1 := by
  obtain ⟨u, o', c', rfl, rfl, hdiffers⟩ := h
  rcases x.run_cases p u c' with hnone | ⟨u₁, v, a, rest, rfl, hv, hread, hrun⟩
  · rw [x.run_append_of_none p hnone]
    exact ⟨u, o', (x.run p c').1, rfl, rfl, hdiffers.run hx⟩
  · -- the tag starts in front of the difference, and so does its second character
    obtain ⟨d, w, hdw, -, -⟩ := exists_eq_of_startsTag (hx.starts hread)
    obtain ⟨b, v, rfl⟩ := List.exists_cons_of_ne_nil hv
    rw [List.cons_append, List.cons.injEq] at hdw
    obtain ⟨rfl, hdw⟩ := hdw
    cases v with
    | nil =>
      have hstart := hx.starts hread
      rw [List.cons_append, List.nil_append, hdiffers.startsTag_eq_false] at hstart
      cases hstart
    | cons e v =>
      rw [hrun]
      refine ⟨u₁, '\x7b' :: e :: (v ++ o'), _, by simp, rfl, ?_⟩
      exact (hx.differs hread p _ _).mono (hx.shelf_prefix_run _ _)

theorem Altered.runAll {xs : List Pass} (hxs : ∀ x ∈ xs, x.Alters) {p : Progress} {o c : Chars}
    (h : Altered p.shelf o c) : Altered (Pass.runAll xs p c).2.shelf o (Pass.runAll xs p c).1 := by
  induction xs generalizing p c with
  | nil => exact h
  | cons x xs ih =>
    rw [List.forall_mem_cons] at hxs
    exact ih hxs.2 (h.run hxs.1)

/-- Passes that alter what they read leave an alteration unless none of them reads anything. -/
theorem Pass.reads_nothing_or_altered {xs : List Pass} (hxs : ∀ x ∈ xs, x.Alters) (p : Progress) (o : Chars) :
    (∀ x ∈ xs, ∀ v, v <:+ o → x.read v = none) ∨
      Altered (Pass.runAll xs p o).2.shelf o (Pass.runAll xs p o).1 := by
  induction xs with
  | nil => exact .inl fun _ hx => nomatch hx
  | cons x xs ih =>
    rw [List.forall_mem_cons] at hxs
    rcases x.run_cases_nil p o with hreads | ⟨u, v, a, rest, rfl, hread, hrun⟩
    · rw [Pass.runAll, x.run_of_none p hreads]
      exact (ih hxs.2).imp_left fun h => List.forall_mem_cons.2 ⟨hreads, h⟩
    · refine .inr (Altered.runAll hxs.2 ?_)
      obtain ⟨d, w, rfl, -, -⟩ := exists_eq_of_startsTag (hxs.1.starts hread)
      rw [hrun]
      exact ⟨u, _, _, rfl, rfl, (hxs.1.differs hread p w _).mono (hxs.1.shelf_prefix_run _ _)⟩

/-! ## What the passes write -/

/-- Target text starts with a brace, another mark and a blank. -/
def StartsTarget (s : Chars) : Prop := ∃ c w, (c = '%' ∨ c = '\x7b') ∧ s = '\x7b' :: c :: ' ' :: w

namespace StartsTarget

theorem tag (statement : Chars) : StartsTarget (Dialect.tag statement) := ⟨'%', _, .inl rfl, rfl⟩

theorem output (e : Chars) : StartsTarget (Dialect.output e) := ⟨'\x7b', _, .inr rfl, rfl⟩

theorem append {s : Chars} (h : StartsTarget s) (t : Chars) : StartsTarget (s ++ t) := by
  obtain ⟨c, w, hc, rfl⟩ := h
  exact ⟨c, w ++ t, hc, rfl⟩

end StartsTarget

theorem startsTarget_emitInclude (t : Translator) (file : Chars) : StartsTarget (t.emitInclude file) := by
  have hliteral (file : Chars) : StartsTarget (t.dialect.includeLiteral file) := by
    cases t.dialect
    · exact .output _
    · exact .tag _
  unfold emitInclude
  split
  · cases t.dialect
    · exact .output _
    · exact .tag _
  · split
    · exact hliteral _
    · exact hliteral _

theorem startsTarget_emitLoop (t : Translator) (depth : Int) (h : Directive.LoopHeader) :
    StartsTarget (t.emitLoop depth h) := by
  have hpair (key value e : Chars) : StartsTarget (t.dialect.forPair key value e) := by
    cases t.dialect <;> exact .tag _
  unfold emitLoop
  split
  · exact .tag _
  · split
    · exact hpair _ _ _
    · cases t.dialect <;> exact .tag _
    · exact ((hpair _ _ _).append _).append _

theorem startsTarget_emitVariable (t : Translator) (body : Chars) : StartsTarget (t.emitVariable body) := by
  unfold emitVariable
  simp only
  split
  · exact .tag _
  · exact .output _

theorem startsTarget_emitFunction (t : Translator) (body : Chars) : StartsTarget (t.emitFunction body) := by
  have hgetD (o : Option Chars) (e : Chars) (h : ∀ out, o = some out → StartsTarget out) :
      StartsTarget (o.getD (t.dialect.rawOutput e)) := by
    cases o with
    | none => exact .output _
    | some out => exact h out rfl
  unfold emitFunction
  split
  · exact .output _
  · refine hgetD _ _ fun out h => ?_
    obtain ⟨filter, -, rfl⟩ := Option.map_eq_some_iff.1 (Option.ite_none_right_eq_some.1 h).2
    exact .output _
  · exact .output _

/-- A pass that writes target text and shelves nothing. -/
theorem Pass.alters_of_startsTarget {x : Pass}
    (hstarts : ∀ {s a rest}, x.read s = some (a, rest) → startsTag s = true)
    (hwrite : ∀ p a, StartsTarget (x.write p a).1 ∧ (x.write p a).2.shelf = p.shelf) : x.Alters where
  keeps p a := (hwrite p a).2 ▸ List.prefix_refl _
  starts := hstarts
  differs {d s a rest} hread p o w := by
    obtain ⟨e, v, hs, hpercent, hbrace⟩ := exists_eq_of_startsTag (hstarts hread)
    obtain ⟨rfl, -⟩ := List.cons.inj (List.cons.inj hs).2
    obtain ⟨c, v, hc, hout⟩ := (hwrite p a).1
    rw [hout]
    refine .target hc ?_
    rcases hc with rfl | rfl
    · exact hpercent.symm
    · exact hbrace.symm

/-- A pass over a kind of blocks puts text on the shelf that starts in another way than the block. -/
theorem alters_pass (t : Translator) (k : BlockKind) : (k.pass t).Alters where
  keeps p body := List.prefix_append _ _
  starts {s a rest} hread := by
    obtain ⟨u, rfl⟩ := BlockKind.opening_prefix hread
    cases k <;> rfl
  differs {d s body rest} hread p o w := by
    obtain ⟨c, out, hout, hc, hd⟩ : ∃ c out, k.output t body = '\x7b' :: c :: out ∧ c ≠ Shelf.opening ∧ c ≠ d := by
      obtain ⟨u, hu⟩ := BlockKind.opening_prefix hread
      obtain ⟨dialect, extension⟩ := t
      cases k with
      | comment => exact ⟨'#', _, rfl, by decide, by cases hu; decide⟩
      | ignored => exact ⟨'#', _, rfl, by decide, by cases hu; decide⟩
      | verbatim => cases dialect <;> exact ⟨'%', _, rfl, by decide, by cases hu; decide⟩
    have hplace : (p.shelf ++ [k.output t body])[p.shelf.length]? = some ('\x7b' :: c :: out) := by
      rw [List.getElem?_append_right (Nat.le_refl _), Nat.sub_self, hout]
      rfl
    exact .placed hplace hc hd

theorem alters_plain {t : Translator} {α : Type} {read : Chars → Option (α × Chars)} {tag : Directive.Tag read}
    {make : α → Chars} (hx : Pass.plain tag make ∈ Stage.pipeline.flatMap t.passes)
    (hmake : ∀ a, StartsTarget (make a)) : (Pass.plain tag make).Alters :=
  Pass.alters_of_startsTarget (startsTag_of_read hx) fun _ a => ⟨hmake a, rfl⟩

theorem alters_loops (t : Translator) : (Pass.loops t).Alters := by
  refine Pass.alters_of_startsTarget (startsTag_of_read (t := t) (List.mem_flatMap.2
    ⟨.loops, Stage.mem_pipeline _, List.mem_cons_self⟩)) fun p mark => ?_
  cases mark with
  | opening header => exact ⟨startsTarget_emitLoop t _ header, rfl⟩
  | closing => exact ⟨.tag _, rfl⟩

/-- Every pass behind the one over entities alters what it reads. -/
theorem alters_passes (t : Translator) :
    ∀ x ∈ blockKinds.map (BlockKind.pass t) ++ t.latePasses, x.Alters := by
  intro x hx
  rcases List.mem_append.1 hx with hx | hx
  · obtain ⟨k, -, rfl⟩ := List.mem_map.1 hx
    exact alters_pass t k
  · have hmem := mem_pipeline_of_mem_latePasses hx
    simp only [latePasses, passes, List.flatMap_cons, List.flatMap_nil, List.cons_append, List.nil_append,
      List.mem_cons, List.not_mem_nil, or_false] at hx
    rcases hx with rfl | rfl | rfl | rfl | rfl | rfl | rfl | rfl | rfl | rfl | rfl
    · exact alters_plain hmem (startsTarget_emitInclude t)
    · exact alters_loops t
    · exact alters_plain hmem fun _ => .tag _
    · exact alters_plain hmem fun _ => .tag _
    · exact alters_plain hmem fun _ => .tag _
    · exact alters_plain hmem fun _ => .tag _
    · exact alters_plain hmem fun _ => .tag _
    · exact alters_plain hmem fun _ => .tag _
    · exact alters_plain hmem (startsTarget_emitVariable t)
    · exact alters_plain hmem (startsTarget_emitFunction t)
    · exact alters_plain hmem fun _ => .output _

/-- A text in which the passes read something is altered by them. -/
theorem readsNothing_or_altered (t : Translator) (s : Chars) :
    ReadsNothing t s ∨ Altered (Pass.runAll (Stage.pipeline.flatMap t.passes) {} (Shelf.escape s)).2.shelf
      (Shelf.escape s) (Pass.runAll (Stage.pipeline.flatMap t.passes) {} (Shelf.escape s)).1 := by
  rw [ReadsNothing, pipeline_eq_cons, Pass.runAll]
  rcases entityPass.run_cases_nil {} (Shelf.escape s) with hreads | ⟨u, v, ⟨name, body⟩, rest, hs, hread, hrun⟩
  · rw [entityPass.run_of_none _ hreads]
    exact (Pass.reads_nothing_or_altered (alters_passes t) {} _).imp_left fun h => List.forall_mem_cons.2 ⟨hreads, h⟩
  · refine .inr (Altered.runAll (alters_passes t) ⟨u, v, _, hs, congrArg Prod.fst hrun, ?_⟩)
    have hwrite (tail : Chars) : (entityPass.write {} (name, body)).1 ++ tail =
        '\x7b' :: (name ++ '=' :: '\x22' :: (decodeEntities body ++ ("\x22\x7d".toList ++ tail))) := by
      change '\x7b' :: name ++ "=\x22".toList ++ decodeEntities body ++ "\x22\x7d".toList ++ tail = _
      simp only [List.append_assoc, List.cons_append]
      rfl
    have hv : v = '\x7b' :: (name ++ '=' :: '&' :: ("quot;".toList ++ (body ++ ("&quot;\x7d".toList ++ rest)))) := by
      rw [Directive.readEntityTag_eq_some hread]
      simp only [List.append_assoc, List.cons_append]
      rfl
    rw [hv, hwrite]
    exact .quoted (lower_of_readEntityTag hread)

/-! ## Emptying the shelf -/

/-- Where an escaped text has a character that is no shield, the text has it. -/
theorem escape_eq_append_cons {s u r : Chars} {c : Char} (ho : c ≠ Shelf.opening) (hc : c ≠ Shelf.closing)
    (h : Shelf.escape s = u ++ c :: r) : ∃ s₁ s₂, s = s₁ ++ c :: s₂ ∧ Shelf.escape s₁ = u ∧ Shelf.escape s₂ = r := by
  induction s generalizing u with
  | nil =>
    rw [Shelf.escape_nil] at h
    exact absurd h (by simp)
  | cons d ds ih =>
    rw [Shelf.escape_cons] at h
    split at h
    · rename_i hd
      match u, h with
      | [], h => exact absurd (List.cons.inj h).1.symm ho
      | [_], h => exact absurd (List.cons.inj (List.cons.inj h).2).1.symm hc
      | a :: b :: u, h =>
        simp only [List.cons_append, List.cons.injEq] at h
        obtain ⟨rfl, rfl, h⟩ := h
        obtain ⟨s₁, s₂, rfl, rfl, rfl⟩ := ih h
        exact ⟨d :: s₁, s₂, rfl, by rw [Shelf.escape_cons, if_pos hd], rfl⟩
    · rename_i hd
      match u, h with
      | [], h =>
        obtain ⟨rfl, rfl⟩ := List.cons.inj h
        exact ⟨[], ds, rfl, Shelf.escape_nil, rfl⟩
      | a :: u, h =>
        rw [List.cons_append, List.cons.injEq] at h
        obtain ⟨rfl, h⟩ := h
        obtain ⟨s₁, s₂, rfl, rfl, rfl⟩ := ih h
        exact ⟨d :: s₁, s₂, rfl, by rw [Shelf.escape_cons, if_neg hd], rfl⟩

theorem restore_append {w : Chars} (hw : Shelf.opening ∉ w) (shelf : List Chars) (r : Chars) :
    Shelf.restore shelf (w ++ r) = w ++ Shelf.restore shelf r := by
  have hrestore := Shelf.restore_escape_append shelf w r
  rwa [Shelf.escape_eq_self hw] at hrestore

/-- A tag does not come back where something else was written. -/
theorem restore_ne_of_differs {shelf : List Chars} {s c : Chars} (h : Differs shelf ('\x7b' :: Shelf.escape s) c) :
    Shelf.restore shelf c ≠ '\x7b' :: s := by
  have hsecond {b d : Char} {rest s o : Chars} (hb : b ≠ Shelf.opening) (hne : b ≠ d)
      (hs : Shelf.escape s = d :: o) : '\x7b' :: b :: rest ≠ '\x7b' :: s := by
    intro heq
    obtain rfl := (List.cons.inj heq).2
    rw [Shelf.escape_cons, if_neg hb] at hs
    exact hne (List.cons.inj hs).1
  generalize ho : '\x7b' :: Shelf.escape s = o at h
  cases h with
  | @target b d o w hb hne =>
    have hb' : b ≠ Shelf.opening := by rcases hb with rfl | rfl <;> decide
    have hrestore := restore_append (w := ['\x7b', b]) (by simp [hb'.symm]; decide) shelf (' ' :: w)
    simp only [List.cons_append, List.nil_append] at hrestore
    rw [hrestore]
    exact hsecond hb' hne (List.cons.inj ho).2
  | @placed b d n out o w body hplace hb hne =>
    rw [Shelf.restore, Shelf.substitute_take_placeholder_append hplace, List.cons_append, List.cons_append,
      Shelf.unescape_cons (.inl (by decide)), Shelf.unescape_cons (.inl hb)]
    exact hsecond hb hne (List.cons.inj ho).2
  | @quoted name o w hname =>
    have hshield : Shelf.opening ∉ name ++ ['=', '\x22'] :=
      List.not_mem_append (fun hm => absurd (hname _ hm) (by decide)) (by decide)
    have hsplit (tail : Chars) : '\x7b' :: (name ++ '=' :: '\x22' :: tail) =
        '\x7b' :: (name ++ ['=', '\x22']) ++ tail := by simp
    rw [hsplit, restore_append (List.not_mem_cons_of_ne_of_not_mem (by decide) hshield)]
    rw [List.cons_append]
    intro heq
    obtain rfl := (List.cons.inj heq).2
    have hquote : name ++ '=' :: '\x22' :: Shelf.escape (Shelf.restore shelf w) = name ++ '=' :: '&' :: o := by
      rw [Shelf.escape_append, Shelf.escape_eq_self hshield, List.append_assoc] at ho
      exact (List.cons.inj ho).2
    exact absurd (List.cons.inj (List.cons.inj (List.append_cancel_left hquote)).2).1 (by decide)

theorem restore_ne_of_altered {shelf : List Chars} {s c : Chars} (h : Altered shelf (Shelf.escape s) c) :
    Shelf.restore shelf c ≠ s := by
  obtain ⟨u, o, c, hs, rfl, hdiffers⟩ := h
  obtain ⟨o, rfl⟩ : ∃ r, o = '\x7b' :: r := by cases hdiffers <;> exact ⟨_, rfl⟩
  obtain ⟨s₁, s₂, rfl, rfl, rfl⟩ := escape_eq_append_cons (by decide) (by decide) hs
  rw [Shelf.restore_escape_append]
  exact fun heq => restore_ne_of_differs hdiffers (List.append_cancel_left heq)

/-! ## Texts that are their own translations -/

/-- A text is its own translation exactly when no pass reads anything in it. -/
theorem translate_eq_self_iff (t : Translator) (s : Chars) : t.translate s = s ↔ ReadsNothing t s := by
  rw [translate_eq, runStages_eq]
  constructor
  · intro heq
    exact (readsNothing_or_altered t s).resolve_right fun h => restore_ne_of_altered h heq
  · intro h
    have hrun (xs : List Pass) (hxs : ∀ x ∈ xs, ∀ v, v <:+ Shelf.escape s → x.read v = none) :
        Pass.runAll xs {} (Shelf.escape s) = (Shelf.escape s, {}) := by
      induction xs with
      | nil => rfl
      | cons x xs ih =>
        rw [List.forall_mem_cons] at hxs
        rw [Pass.runAll, x.run_of_none _ hxs.1, ih hxs.2]
    rw [hrun _ h, Shelf.restore_of_empty]
    have hunescape := Shelf.unescape_escape_append s []
    rwa [List.append_nil, Shelf.unescape_nil, List.append_nil] at hunescape

end ViewBridge.Translator
