import Mathlib.Data.List.Infix
import ViewBridge.Proofs.Shielding
/-!
# Bodies that are not shielded yet

With nothing open around a block, an early pass works on the inside of the block as on a text of its own.
What it reads there costs the text a brace that opens or an ampersand, which nothing brings back, so a block
comes out with its body only if no early pass finds anything in it.

Results:
* `Inside.run_source`: an early pass on the inside of a block.
* `leftBy_of_count`: early passes that cost a body nothing leave its block alone.
* `translate_block`: what becomes of a block with nothing around it.
* `output_infix_translate`: which blocks come out with their bodies.
-/
namespace ViewBridge.Directive

/-! ## Entity tags at the end of a text -/

/-- A character that no part of an entity tag goes on with, in front of a text without an end of one. -/
structure EntityStop (c : Char) (t : Chars) : Prop where
  name : ¬ ('a' ≤ c ∧ c ≤ 'z')
  marks : c ∉ "=&quot;\x7d".toList
  closed : ¬ "&quot;\x7d".toList <:+: c :: t

theorem readEntityBody_append_cons {c : Char} {t : Chars} (h : EntityStop c t) (s : Chars) :
    readEntityBody (s ++ c :: t) = (readEntityBody s).map fun (a, rest) => (a, rest ++ c :: t) := by
  have hcut (s : Chars) : Text.cut? "&quot;\x7d".toList (s ++ c :: t) =
      (Text.cut? "&quot;\x7d".toList s).map fun (pre, rest) => (pre, rest ++ c :: t) :=
    Text.cut?_append_cons (fun hm => h.marks (List.mem_cons_of_mem _ (List.mem_cons_of_mem _ hm))) h.closed s
  cases s with
  | nil =>
    have hnone : Text.cut? "&quot;\x7d".toList t = none :=
      (Text.cut?_eq_none_iff (by decide) t).2 fun hm => h.closed (List.infix_cons hm)
    simp only [List.nil_append, readEntityBody, Option.map_none]
    split
    · rfl
    · rw [hnone, Option.bind_none]
  | cons d ds =>
    simp only [List.cons_append, readEntityBody, hcut]
    split
    · rfl
    · cases Text.cut? "&quot;\x7d".toList ds with
      | none => rfl
      | some r =>
        simp only [Option.map_some, Option.bind_some]
        split <;> rfl

/-- A tag is read over a seam as its body is. -/
theorem readEntityTag_append_of_body {c : Char} {t : Chars} (hname : ¬ ('a' ≤ c ∧ c ≤ 'z'))
    (hmarks : c ∉ "=&quot;".toList)
    (hbody : ∀ s, readEntityBody (s ++ c :: t) = (readEntityBody s).map fun (a, rest) => (a, rest ++ c :: t))
    {s : Chars} (hs : s ≠ []) :
    readEntityTag (s ++ c :: t) = (readEntityTag s).map fun (a, rest) => (a, rest ++ c :: t) := by
  have hbrace : Text.after? "\x7b".toList (s ++ c :: t) =
      (Text.after? "\x7b".toList s).map (· ++ c :: t) :=
    Text.after?_append_cons_of_tail List.not_mem_nil hs t
  have hlower : decide ('a' ≤ c ∧ c ≤ 'z') = false := decide_eq_false hname
  simp only [readEntityTag, Option.bind_eq_bind, Option.pure_def, hbrace]
  cases Text.after? "\x7b".toList s with
  | none => rfl
  | some s₁ =>
    simp only [Option.map_some, Option.bind_some]
    rw [Text.takeWhile_append_cons (p := fun c : Char => decide ('a' ≤ c ∧ c ≤ 'z')) hlower,
      Text.dropWhile_append_cons (p := fun c : Char => decide ('a' ≤ c ∧ c ≤ 'z')) hlower,
      Text.after?_append_cons hmarks]
    split
    · rfl
    · cases Text.after? "=&quot;".toList (s₁.dropWhile fun c => decide ('a' ≤ c ∧ c ≤ 'z')) with
      | none => rfl
      | some s₂ =>
        simp only [Option.map_some, Option.bind_some, hbody]
        cases readEntityBody s₂ <;> rfl

theorem readEntityTag_append_cons {c : Char} {t : Chars} (h : EntityStop c t) {s : Chars} (hs : s ≠ []) :
    readEntityTag (s ++ c :: t) = (readEntityTag s).map fun (a, rest) => (a, rest ++ c :: t) :=
  readEntityTag_append_of_body h.name (fun hm => h.marks (List.mem_append_left ['\x7d'] hm))
    (readEntityBody_append_cons h) hs

/-- No entity tag has another character behind its name. -/
theorem readEntityTag_eq_none (name : Chars) (c : Char)
    (hname : (name.all fun d => decide ('a' ≤ d ∧ d ≤ 'z')) = true) (hc : ¬ ('a' ≤ c ∧ c ≤ 'z'))
    (hne : c ≠ '=') (s : Chars) : readEntityTag ('\x7b' :: (name ++ c :: s)) = none := by
  cases hread : readEntityTag ('\x7b' :: (name ++ c :: s)) with
  | none => rfl
  | some r =>
    simp only [readEntityTag, Option.bind_eq_bind, Option.pure_def] at hread
    obtain ⟨s₁, h₁, hread⟩ := Option.bind_eq_some_iff.1 hread
    have hs : name ++ c :: s = s₁ := (List.cons.inj (Text.after?_eq_some_iff.1 h₁)).2
    subst hs
    split at hread
    · cases hread
    · obtain ⟨s₂, h₂, -⟩ := Option.bind_eq_some_iff.1 hread
      rw [List.dropWhile_append_of_pos (List.all_eq_true.1 hname), List.dropWhile_cons,
        if_neg (by simpa using hc)] at h₂
      exact absurd (List.cons.inj (Text.after?_eq_some_iff.1 h₂)).1 hne

end ViewBridge.Directive

namespace ViewBridge.Translator

open ViewBridge.Shelf (Solid)

/-! ## Passes inside a block -/

/-- A pass that does not read the markers of a block or over them. -/
structure Inside (x : Pass) (k : BlockKind) : Prop where
  opening : ∀ s, x.read (k.opening ++ s) = none
  closing : ∀ s, x.read (k.closing ++ s) = none
  seam : ∀ v, v ≠ [] → x.read (v ++ k.closing) = (x.read v).map fun (a, rest) => (a, rest ++ k.closing)

/-- What does not read a marker reads nothing at the parts of one. -/
theorem Marker.read_eq_none {w : Chars} (hw : Marker w) {x : Pass} (h : ∀ s, x.read (w ++ s) = none)
    {v : Chars} (hv : v ≠ []) (hsuffix : v <:+ w) (s : Chars) : x.read (v ++ s) = none := by
  obtain ⟨a, rest, rfl, -, -, hbrace⟩ := hw.word
  rcases List.suffix_cons_iff.1 hsuffix with rfl | hsuffix
  · exact h s
  · obtain ⟨c, cs, rfl⟩ := List.exists_cons_of_ne_nil hv
    refine x.tag.none_of_head ?_ (cs ++ s)
    rintro rfl
    exact hbrace (hsuffix.mem List.mem_cons_self)

namespace Inside

variable {x : Pass} {k : BlockKind}

theorem run_source (h : Inside x k) (p : Progress) (body : Chars) :
    x.run p (k.source body) = (k.source (x.run p body).1, (x.run p body).2) := by
  have hclose (p : Progress) : x.run p k.closing = (k.closing, p) := by
    have hcopy := x.run_append_of_none p fun v hv hsuffix =>
      k.marker_closing.read_eq_none h.closing hv hsuffix []
    rwa [x.run_nil, List.append_nil] at hcopy
  rw [BlockKind.source, x.run_append_of_none p fun v hv hsuffix =>
    k.marker_opening.read_eq_none h.opening hv hsuffix _, x.run_append p fun v hv _ => h.seam v hv, hclose]
  rfl

/-- What finds nothing inside a block leaves it alone. -/
theorem apart (h : Inside x k) {body : Chars} (hbody : ∀ v, v <:+ body → x.read v = none) :
    Apart x [] (k.source body) [] where
  before v hv hsuffix := absurd (List.suffix_nil.1 hsuffix) hv
  within v hv hsuffix := by
    rw [List.append_nil]
    rcases Text.suffix_append_cases hsuffix with hinner | ⟨u, hu, hopening, rfl⟩
    · rcases Text.suffix_append_cases hinner with hclosing | ⟨u, hu, hinside, rfl⟩
      · have := k.marker_closing.read_eq_none h.closing hv hclosing []
        rwa [List.append_nil] at this
      · rw [h.seam u hu, hbody u hinside, Option.map_none]
    · exact k.marker_opening.read_eq_none h.opening hu hopening _

end Inside

theorem inside_pass (t : Translator) {j k : BlockKind} (hj : j ∈ k.before) : Inside (j.pass t) k where
  opening s := by
    revert hj
    cases j <;> cases k <;> first | (intro _; rfl) | exact fun hj => absurd hj (by decide)
  closing s := by cases j <;> cases k <;> rfl
  seam := by
    intro v hv
    obtain ⟨a, as, ho, -⟩ := j.marker_opening.word
    obtain ⟨b, bs, hc, -⟩ := j.marker_closing.word
    obtain ⟨c, cs, hk, -⟩ := k.marker_closing.word
    have hcut : Text.cut? j.closing k.closing = none := by
      revert hj
      cases j <;> cases k <;> first | (intro _; rfl) | exact fun hj => absurd hj (by decide)
    have htails : k.closing.head? = some '\x7b' ∧ '\x7b' ∉ j.opening.tail ∧ '\x7b' ∉ j.closing.tail := by
      revert hj
      cases j <;> cases k <;> decide
    rw [ho, hc, hk, List.head?_cons, Option.some.injEq, List.tail_cons, List.tail_cons] at htails
    obtain ⟨rfl, has, hbs⟩ := htails
    rw [Text.cut?_eq_none_iff j.marker_closing.ne_nil, hc, hk] at hcut
    change j.read (v ++ k.closing) = (j.read v).map fun (a, rest) => (a, rest ++ k.closing)
    simp only [BlockKind.read, Directive.readBlock, ho, hc, hk, Text.after?_append_cons_of_tail has hv]
    cases Text.after? (a :: as) v with
    | none => rfl
    | some s =>
      simp only [Option.map_some, Option.bind_some]
      exact Text.cut?_append_cons hbs hcut s

theorem BlockKind.entityStop_closing (k : BlockKind) :
    ∃ c t, k.closing = c :: t ∧ Directive.EntityStop c t := by
  have hclosed : ¬ "&quot;\x7d".toList <:+: k.closing :=
    (Text.cut?_eq_none_iff (by decide) _).1 (by cases k <;> rfl)
  cases k with
  | comment => exact ⟨'*', "\x7d".toList, rfl, by decide, by decide, hclosed⟩
  | ignored => exact ⟨'\x7b', "/ignore\x7d".toList, rfl, by decide, by decide, hclosed⟩
  | verbatim => exact ⟨'\x7b', "/noparse\x7d".toList, rfl, by decide, by decide, hclosed⟩
theorem inside_entityPass (k : BlockKind) : Inside entityPass k where
  opening s := by
    cases k with
    | comment =>
      exact Directive.readEntityTag_eq_none [] '*' (by decide) (by decide) (by decide) s
    | ignored =>
      exact Directive.readEntityTag_eq_none "ignore".toList '\x7d' (by decide) (by decide)
        (by decide) s
    | verbatim =>
      exact Directive.readEntityTag_eq_none "noparse".toList '\x7d' (by decide) (by decide)
        (by decide) s
  closing s := by
    cases k with
    | comment => exact Directive.tag_readEntityTag.none_of_head (by decide) _
    | ignored =>
      exact Directive.readEntityTag_eq_none [] '/' (by decide) (by decide) (by decide) _
    | verbatim =>
      exact Directive.readEntityTag_eq_none [] '/' (by decide) (by decide) (by decide) _
  seam v hv := by
    obtain ⟨c, t, hk, hstop⟩ := k.entityStop_closing
    rw [hk]
    exact Directive.readEntityTag_append_cons hstop hv

/-! ## What reading costs -/

/-- A pass that writes no more of a character than it reads. -/
def Pass.Keeps (x : Pass) (c : Char) : Prop :=
  ∀ {p s out p' rest}, x.find p s = some (out, p', rest) →
    ∃ used, s = used ++ rest ∧ out.count c ≤ used.count c

/-- A pass that writes less of a character than it reads. -/
def Pass.Drops (x : Pass) (c : Char) : Prop :=
  ∀ {p s out p' rest}, x.find p s = some (out, p', rest) →
    ∃ used, s = used ++ rest ∧ out.count c < used.count c

/-- The characters that the early passes use up: each pass one of them, and none adds to the other one. -/
def costs : Chars := ['\x7b', '&']

theorem count_decodeEntities_le {c : Char} (hc : c ∈ costs) (s : Chars) :
    (decodeEntities s).count c ≤ s.count c := by
  have hstep (old new : String) (hold : old.toList ≠ [])
      (hle : (costs.all fun c => decide (new.toList.count c ≤ old.toList.count c)) = true) (s : Chars) :
      (Text.replace old.toList new.toList s).count c ≤ s.count c :=
    Text.count_replace_le hold (of_decide_eq_true (List.all_eq_true.1 hle c hc)) s
  simp only [decodeEntities, List.foldl_cons, List.foldl_nil]
  refine (hstep _ _ (by decide) (by decide) _).trans ?_
  refine (hstep _ _ (by decide) (by decide) _).trans ?_
  refine (hstep _ _ (by decide) (by decide) _).trans ?_
  refine (hstep _ _ (by decide) (by decide) _).trans ?_
  refine (hstep _ _ (by decide) (by decide) _).trans ?_
  refine (hstep _ _ (by decide) (by decide) _).trans ?_
  exact hstep _ _ (by decide) (by decide) _

theorem count_entityPass {p p' : Progress} {s out rest : Chars}
    (hf : entityPass.find p s = some (out, p', rest)) :
    ∃ used, s = used ++ rest ∧ out.count '\x7b' ≤ used.count '\x7b' ∧ out.count '&' < used.count '&' := by
  obtain ⟨⟨name, body⟩, hr, hout, -⟩ := Pass.find_eq_some hf
  have hout : out = '\x7b' :: name ++ "=\x22".toList ++ decodeEntities body ++ "\x22\x7d".toList := hout
  refine ⟨_, Directive.readEntityTag_eq_some hr, ?_, ?_⟩
  · have hle := count_decodeEntities_le (c := '\x7b') (by decide) body
    rw [hout]
    simp only [List.count_append]
    have h1 : "=\x22".toList.count '\x7b' = 0 ∧ "\x22\x7d".toList.count '\x7b' = 0 := by decide
    omega
  · have hle := count_decodeEntities_le (c := '&') (by decide) body
    rw [hout]
    simp only [List.count_append]
    have h1 : "=\x22".toList.count '&' = 0 ∧ "\x22\x7d".toList.count '&' = 0 ∧
      "=&quot;".toList.count '&' = 1 := by decide
    omega

theorem count_pass {t : Translator} {k : BlockKind} {p p' : Progress} {s out rest : Chars}
    (hf : (k.pass t).find p s = some (out, p', rest)) :
    ∃ used, s = used ++ rest ∧ out.count '&' ≤ used.count '&' ∧ out.count '\x7b' < used.count '\x7b' := by
  obtain ⟨(body : Chars), hr, rfl, -⟩ := Pass.find_eq_some hf
  have hout (c : Char) (hc : Shelf.foreign c = true) :
      (Shelf.placeholder p.shelf.length (k.output t body)).count c = 0 :=
    List.count_eq_zero.2 ((Solid.placeholder _ _).not_mem hc)
  obtain ⟨s', hs, hcut⟩ := Option.bind_eq_some_iff.1 hr
  refine ⟨k.opening ++ body ++ k.closing, ?_, ?_, ?_⟩
  · rw [Text.after?_eq_some_iff.1 hs, Text.cut?_eq_some hcut]
    simp only [List.append_assoc]
  · exact (hout '&' rfl).le.trans (Nat.zero_le _)
  · refine (hout '\x7b' rfl).trans_lt (List.count_pos_iff.2 ?_)
    rw [List.append_assoc]
    exact List.mem_append_left _ (by cases k <;> decide)

/-- A pass on the inside of a block that uses up one of these characters and adds to none. -/
structure Early (x : Pass) (k : BlockKind) : Prop extends Inside x k where
  keeps : ∀ c ∈ costs, x.Keeps c
  drops : ∃ c ∈ costs, x.Drops c

theorem early_of_mem {t : Translator} {k : BlockKind} {x : Pass} (hx : x ∈ t.earlyPasses k) : Early x k := by
  rcases List.mem_cons.1 hx with rfl | hx
  · refine ⟨inside_entityPass k, ?_, '&', by decide, ?_⟩
    · intro c hc p s out p' rest hf
      obtain ⟨used, hs, hbrace, hamp⟩ := count_entityPass hf
      simp only [costs, List.mem_cons, List.not_mem_nil, or_false] at hc
      rcases hc with rfl | rfl
      · exact ⟨used, hs, hbrace⟩
      · exact ⟨used, hs, hamp.le⟩
    · intro p s out p' rest hf
      obtain ⟨used, hs, -, hamp⟩ := count_entityPass hf
      exact ⟨used, hs, hamp⟩
  · obtain ⟨j, hj, rfl⟩ := List.mem_map.1 hx
    refine ⟨inside_pass t hj, ?_, '\x7b', by decide, ?_⟩
    · intro c hc p s out p' rest hf
      obtain ⟨used, hs, hamp, hbrace⟩ := count_pass hf
      simp only [costs, List.mem_cons, List.not_mem_nil, or_false] at hc
      rcases hc with rfl | rfl
      · exact ⟨used, hs, hbrace.le⟩
      · exact ⟨used, hs, hamp⟩
    · intro p s out p' rest hf
      obtain ⟨used, hs, -, hbrace⟩ := count_pass hf
      exact ⟨used, hs, hbrace⟩

theorem count_runAll_le {k : BlockKind} {xs : List Pass} (hxs : ∀ x ∈ xs, Early x k) {c : Char}
    (hc : c ∈ costs) (p : Progress) (s : Chars) : (Pass.runAll xs p s).1.count c ≤ s.count c := by
  induction xs generalizing p s with
  | nil => exact Nat.le_refl _
  | cons x xs ih =>
    rw [List.forall_mem_cons] at hxs
    exact (ih hxs.2 _ _).trans (Text.count_substituteFrom_le (hxs.1.keeps c hc) p s)

theorem runAll_source {k : BlockKind} {xs : List Pass} (hxs : ∀ x ∈ xs, Early x k) (p : Progress)
    (body : Chars) :
    Pass.runAll xs p (k.source body) = (k.source (Pass.runAll xs p body).1, (Pass.runAll xs p body).2) := by
  induction xs generalizing p body with
  | nil => rfl
  | cons x xs ih =>
    rw [List.forall_mem_cons] at hxs
    rw [Pass.runAll, Pass.runAll, hxs.1.run_source, ih hxs.2]

/-- Early passes that cost a body nothing leave its block alone. -/
theorem leftBy_of_count {k : BlockKind} {xs : List Pass} (hxs : ∀ x ∈ xs, Early x k) {p : Progress}
    {body : Chars} (hcount : ∀ c ∈ costs, body.count c ≤ (Pass.runAll xs p body).1.count c) :
    LeftBy xs p [] (k.source body) [] := by
  induction xs with
  | nil => trivial
  | cons x xs ih =>
    rw [List.forall_mem_cons] at hxs
    obtain ⟨c, hc, hdrops⟩ := hxs.1.drops
    have hequal : (x.run p body).1.count c = body.count c :=
      le_antisymm (Text.count_substituteFrom_le (hxs.1.keeps c hc) p body)
        ((hcount c hc).trans (count_runAll_le hxs.2 hc _ _))
    have hnone : ∀ v, v <:+ body → x.read v = none := fun v hv =>
      Option.map_eq_none_iff.1 (Text.find_eq_none_of_count hdrops hequal hv)
    have hrun := x.run_of_none p hnone
    refine ⟨hxs.1.toInside.apart hnone, ?_⟩
    rw [x.run_nil, x.run_nil]
    refine ih hxs.2 fun c hc => ?_
    have := hcount c hc
    rwa [Pass.runAll, hrun] at this

/-! ## Blocks on their own -/

theorem Marker.infix_of_infix_runAll {w : Chars} (h : Marker w) {t : Translator} {k : BlockKind}
    {xs : List Pass} (hxs : ∀ x ∈ xs, x ∈ t.earlyPasses k) {p : Progress} {s : Chars}
    (hs : w <:+: (Pass.runAll xs p s).1) : w <:+: s := by
  induction xs generalizing p s with
  | nil => exact hs
  | cons x xs ih =>
    rw [List.forall_mem_cons] at hxs
    exact h.infix_of_infix_earlyPasses hxs.1 (ih hxs.2 hs)

/-- A block with nothing around it is a placeholder behind the passes over blocks. -/
theorem runAll_block (t : Translator) (k : BlockKind) {body : Chars} (hbody : ¬ k.closing <:+: body) :
    ∃ n p, Pass.runAll (t.earlyPasses k ++ k.pass t :: k.behind.map (BlockKind.pass t)) {}
        (Shelf.escape (k.source body)) =
          (Shelf.placeholder n (k.output t (Pass.runAll (t.earlyPasses k) {} (Shelf.escape body)).1), p) ∧
      p.shelf[n]? = some (k.output t (Pass.runAll (t.earlyPasses k) {} (Shelf.escape body)).1) := by
  have hearly := runAll_source (fun x => early_of_mem (t := t) (k := k)) {} (Shelf.escape body)
  rw [← k.escape_source] at hearly
  have hclosing : ¬ k.closing <:+: (Pass.runAll (t.earlyPasses k) {} (Shelf.escape body)).1 := fun h =>
    hbody (k.marker_closing.infix_of_infix_escape
      (k.marker_closing.infix_of_infix_runAll (fun _ hx => hx) h))
  generalize Pass.runAll (t.earlyPasses k) {} (Shelf.escape body) = r at hearly hclosing
  obtain ⟨hblocks, hplace⟩ := runAll_blocks t k [] [] (p := r.2)
    (by rw [hearly, List.nil_append, List.append_nil])
    (fun j hj => j.marker_opening.ne_nil (List.infix_nil.1 hj)) hclosing
  simp only [Pass.run_nil, Pass.runAll_nil, List.nil_append, List.append_nil] at hblocks hplace
  exact ⟨_, _, hblocks, hplace⟩

theorem runAll_placeholder (xs : List Pass) (p : Progress) (n : Nat) (body : Chars) :
    Pass.runAll xs p (Shelf.placeholder n body) = (Shelf.placeholder n body, p) := by
  have hcopy := Pass.runAll_append_left xs p ((Solid.placeholder n body).not_mem (c := '\x7b') rfl) []
  rwa [Pass.runAll_nil, List.append_nil] at hcopy

/-- What becomes of a block with nothing around it. -/
theorem translate_block (t : Translator) (k : BlockKind) {body : Chars} (hbody : ¬ k.closing <:+: body) :
    t.translate (k.source body) =
      Shelf.unescape (k.output t (Pass.runAll (t.earlyPasses k) {} (Shelf.escape body)).1) := by
  obtain ⟨n, p, hblocks, hplace⟩ := runAll_block t k hbody
  rw [translate_eq_of_blocks t k hblocks, runAll_placeholder, Shelf.restore_placeholder hplace]

/-- No name is bound where nothing is read. -/
theorem not_unwritten {w s : Chars} (hs : '\x7b' ∉ s) : ¬ Directive.Unwritten w s := by
  rintro ⟨v, header, rest, hv, hread, -⟩
  have hhead := Directive.tag_readLoop.opens hread
  exact hs (hv.mem (List.mem_of_mem_head? hhead))

/-- Early passes that read nothing in a body leave its block alone. -/
theorem leftBy_of_reads {k : BlockKind} {xs : List Pass} (hxs : ∀ x ∈ xs, Early x k) {p : Progress}
    {body : Chars} (hreads : ∀ x ∈ xs, ∀ v, v <:+ body → x.read v = none) :
    LeftBy xs p [] (k.source body) [] := by
  induction xs with
  | nil => trivial
  | cons x xs ih =>
    rw [List.forall_mem_cons] at hxs hreads
    refine ⟨hxs.1.toInside.apart hreads.1, ?_⟩
    rw [x.run_nil, x.run_nil]
    exact ih hxs.2 hreads.2

theorem kept_of_leftBy {t : Translator} {k : BlockKind} {body : Chars} (hbody : ¬ k.closing <:+: body)
    (h : LeftBy (t.earlyPasses k) {} [] (k.source (Shelf.escape body)) []) : Kept t k [] body [] where
  left := by rwa [Shelf.escape_nil]
  written := by
    intro s number
    obtain ⟨n, p, hblocks, -⟩ := runAll_block t k hbody
    have hs : s = Shelf.escape (k.source body) := by simp only [s, List.nil_append, List.append_nil]
    rw [hs, runStages_upTo_includes_of_blocks t k hblocks, runAll_placeholder]
    exact not_unwritten ((Solid.placeholder _ _).not_mem rfl)

/-- A block with nothing around it comes out with its body only if it was left alone. -/
theorem leftBy_of_infix_translate (t : Translator) (k : BlockKind) {body : Chars} (hbody : ¬ k.closing <:+: body)
    (h : k.output t body <:+: t.translate (k.source body)) :
    LeftBy (t.earlyPasses k) {} [] (k.source (Shelf.escape body)) [] := by
  refine leftBy_of_count (fun x => early_of_mem) fun c hc => ?_
  have hshield : (costs.all fun c => decide ([Shelf.opening, Shelf.closing].count c ≤ [Shelf.opening].count c ∧
      [Shelf.opening].count c ≤ [Shelf.opening, Shelf.closing].count c)) = true := by decide
  have hle := of_decide_eq_true (List.all_eq_true.1 hshield c hc)
  have hescape : (Shelf.escape body).count c ≤ body.count c := Text.count_replace_le (by decide) hle.1 body
  obtain ⟨lead, tail, -, -, hout⟩ := k.output_eq t
  rw [translate_block t k hbody] at h
  have hcount := (h.sublist.count_le c).trans (Text.count_replace_le (by decide) hle.2 _)
  rw [hout, hout] at hcount
  simp only [List.count_append] at hcount
  omega

/-- A block comes out with its body if the early passes leave it alone and its placeholder is written. With
nothing open in front of it and nothing that closes behind it, it does not otherwise. -/
theorem output_infix_translate (t : Translator) (k : BlockKind) {body : Chars}
    (hbody : ¬ k.closing <:+: body) :
    (∀ pre post, (∀ j : BlockKind, ¬ j.opening <:+: pre) → Kept t k pre body post →
      k.output t body <:+: t.translate (pre ++ (k.source body ++ post))) ∧
    ∀ pre post, '\x7b' ∉ pre → '\x7d' ∉ post →
      (k.output t body <:+: t.translate (pre ++ (k.source body ++ post)) ↔ Kept t k [] body []) := by
  refine ⟨fun pre post hpre h => output_infix_of_kept hpre hbody h, fun pre post hpre hpost => ?_⟩
  have hframe : t.translate (pre ++ (k.source body ++ post)) = pre ++ (t.translate (k.source body) ++ post) := by
    rw [translate, t.translateThrough_append_left _ hpre, t.translateThrough_append_right _ hpost]
    rfl
  rw [hframe]
  constructor
  · intro h
    refine kept_of_leftBy hbody (leftBy_of_infix_translate t k hbody ?_)
    obtain ⟨lead, tail, -, -, hout⟩ := k.output_eq t
    have hlast : (k.output t body).getLast? = some '\x7d' := by
      cases k with
      | comment => exact Dialect.getLast?_comment body
      | ignored => exact Dialect.getLast?_comment body
      | verbatim => exact Dialect.getLast?_verbatim t.dialect body
    obtain ⟨init, hinit⟩ := List.getLast?_eq_some_iff.1 hlast
    have hbehind : k.output t body <:+: t.translate (k.source body) ++ post := by
      rw [hout body] at h ⊢
      exact Text.infix_of_infix_append hpre h
    rw [hinit] at hbehind ⊢
    exact Text.concat_infix_of_infix_append hpost hbehind
  · intro h
    have hnil (j : BlockKind) : ¬ j.opening <:+: [] := fun hj => j.marker_opening.ne_nil (List.infix_nil.1 hj)
    have hblock := output_infix_of_kept hnil hbody h
    rw [List.nil_append, List.append_nil] at hblock
    exact List.infix_append_of_infix_right (List.infix_append_of_infix_left hblock)

/-- A variable in a verbatim block: nothing is read before the block is on the shelf. -/
theorem output_infix_translate_variable :
    let t : Translator := ⟨.twig, "html".toList⟩
    Dialect.verbatim .twig "\x7b$x\x7d".toList <:+:
      t.translate ("a".toList ++ (BlockKind.source .verbatim "\x7b$x\x7d".toList ++ "b".toList)) := by
  intro t
  have hreads : ∀ x ∈ t.earlyPasses .verbatim, ∀ v, v <:+ "\x7b$x\x7d".toList → x.read v = none := by
    intro x hx v hv
    have hall : ("\x7b$x\x7d".toList.tails.all fun v => (x.read v).isNone) = true := by
      simp only [earlyPasses, BlockKind.before, List.map_cons, List.map_nil, List.mem_cons, List.not_mem_nil,
        or_false] at hx
      rcases hx with rfl | rfl | rfl <;> decide
    exact Option.isNone_iff_eq_none.1 (List.all_eq_true.1 hall v ((List.mem_tails v _).2 hv))
  have hclosing : ¬ BlockKind.closing .verbatim <:+: "\x7b$x\x7d".toList :=
    (Text.cut?_eq_none_iff (by decide) _).1 rfl
  have hkept : Kept t .verbatim [] "\x7b$x\x7d".toList [] := by
    refine kept_of_leftBy hclosing ?_
    rw [Shelf.escape_eq_self (by decide)]
    exact leftBy_of_reads (fun x => early_of_mem) hreads
  exact ((output_infix_translate t .verbatim hclosing).2 _ _ (by decide) (by decide)).2 hkept

/-- A comment in a verbatim block is read before the block is. -/
example (t : Translator) : ¬ Kept t .verbatim [] "\x7b* c *\x7d".toList [] := by
  intro h
  have hleft := h.left
  rw [Shelf.escape_nil, Shelf.escape_eq_self (by decide)] at hleft
  obtain ⟨-, ⟨-, hwithin⟩, -⟩ := hleft
  have hread := hwithin "\x7b* c *\x7d\x7b/noparse\x7d".toList (by decide) ⟨"\x7bnoparse\x7d".toList, rfl⟩
  simp only [Pass.run_nil] at hread
  cases hread

end ViewBridge.Translator
