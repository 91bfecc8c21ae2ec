import Mathlib.Data.List.TakeWhile
import ViewBridge.Proofs.Lookup.Sharing
import ViewBridge.Template.Escaping
/-!
# Names of one file

A file can be asked for under many names: with and without the extension, with segments that mean nothing, by a
shorter path, by its counterpart. What it is read as shows in the last segment of its path. How it is escaped
shows in the last segment of the name, which is that of the path only up to extensions; and if the name ends in
a slash or a dot, its last segment is none of the path at all.

Results:
* `FileTree.file_eq_of_steps`: paths with the same steps lead to the same file.
* `Resolver.isLegacy_iff_of_locate`: a file is read as a legacy one by its path, whatever it was asked for as.
* `Resolver.resolve_of_path`: names of one path are answered with one template.
* `TemplateName.Telling.ofName_eq`: a name whose last segment tells its extension is escaped by that segment.
* `Resolver.ofName_of_locate`: where legacy templates are HTML, such a name is escaped as the path it leads to.
-/
namespace ViewBridge

/-! ## Last parts -/

namespace Text

variable {c : Char} {s w : Chars}

theorem afterLast_append (h : c ∉ w) (s : Chars) : afterLast c (s ++ w) = afterLast c s ++ w := by
  have hpass : ∀ d ∈ w.reverse, (d != c) = true := by
    intro d hd
    rw [bne_iff_ne]
    rintro rfl
    exact h (List.mem_reverse.1 hd)
  unfold afterLast
  rw [List.reverse_append, List.takeWhile_append_of_pos hpass, List.reverse_append, List.reverse_reverse]

theorem afterLast_of_not_mem (h : c ∉ s) : afterLast c s = s := afterLast_append h []

theorem afterLast_append_self (c : Char) (s : Chars) : afterLast c (s ++ [c]) = [] := by
  simp [afterLast]

theorem not_mem_afterLast (c : Char) (s : Chars) : c ∉ afterLast c s := by
  intro h
  have := List.mem_takeWhile_imp (List.mem_reverse.1 h)
  simp at this

/-- A text ends in its last part, which is all of it or stands behind the separator. -/
theorem eq_append_afterLast (c : Char) (s : Chars) :
    ∃ front, s = front ++ afterLast c s ∧ (front = [] ∨ ∃ init, front = init ++ [c]) := by
  refine ⟨(s.reverse.dropWhile (· != c)).reverse, ?_, ?_⟩
  · rw [afterLast, ← List.reverse_append, List.takeWhile_append_dropWhile, List.reverse_reverse]
  · cases hrest : s.reverse.dropWhile (· != c) with
    | nil => exact .inl rfl
    | cons d rest =>
      have hd : ¬ (d != c) = true := by
        have := List.head_dropWhile_not (· != c) (l := s.reverse) (by simp [hrest])
        simpa [hrest] using this
      obtain rfl : d = c := by simpa using hd
      exact .inr ⟨rest.reverse, by simp⟩

theorem afterLast_append_cons (c : Char) (s w : Chars) : afterLast c (s ++ c :: w) = afterLast c w := by
  obtain ⟨front, hw, hfront⟩ := eq_append_afterLast c w
  have hsplit : ∃ init, s ++ c :: (front ++ afterLast c w) = init ++ [c] ++ afterLast c w := by
    obtain rfl | ⟨init, rfl⟩ := hfront
    · exact ⟨s, by simp⟩
    · exact ⟨s ++ c :: init, by simp⟩
  obtain ⟨init, hinit⟩ := hsplit
  rw [← hw] at hinit
  rw [hinit, afterLast_append (not_mem_afterLast c w), afterLast_append_self, List.nil_append]

/-- An ending without the separator is that of the last part. -/
theorem suffix_afterLast_iff (h : c ∉ w) (s : Chars) : w <:+ afterLast c s ↔ w <:+ s := by
  constructor
  · intro hw
    obtain ⟨front, hs, -⟩ := eq_append_afterLast c s
    rw [hs]
    exact hw.trans (List.suffix_append _ _)
  · rintro ⟨front, rfl⟩
    rw [afterLast_append h]
    exact List.suffix_append _ _

theorem afterLast_append_of_mem (h : c ∈ w) (s : Chars) : afterLast c (s ++ w) = afterLast c w := by
  obtain ⟨front, rest, rfl⟩ := List.append_of_mem h
  rw [← List.append_assoc, afterLast_append_cons, afterLast_append_cons]

end Text

namespace Path

theorem exists_segments_eq (p : Chars) : ∃ init, segments p = init ++ [Text.afterLast '/' p] := by
  obtain ⟨front, hp, hfront⟩ := Text.eq_append_afterLast '/' p
  have hlast := segments_of_no_slash (Text.not_mem_afterLast '/' p)
  obtain rfl | ⟨init, rfl⟩ := hfront
  · rw [List.nil_append] at hp
    rw [← hp] at hlast
    exact ⟨[], by rw [hlast, ← hp, List.nil_append]⟩
  · refine ⟨segments init, ?_⟩
    rw [List.append_assoc, List.singleton_append] at hp
    rw [← hlast, ← segments_append, ← hp]

theorem getLast?_segments (p : Chars) : (segments p).getLast? = some (Text.afterLast '/' p) := by
  obtain ⟨init, hp⟩ := exists_segments_eq p
  rw [hp, List.getLast?_concat]

theorem afterLast_join_of_getLast? {ps : List Chars} {last : Chars} (h : ∀ p ∈ ps, '/' ∉ p)
    (hlast : ps.getLast? = some last) : Text.afterLast '/' (Text.join ['/'] ps) = last := by
  have hne : ps ≠ [] := by
    rintro rfl
    cases hlast
  have hjoin := getLast?_segments (Text.join ['/'] ps)
  rw [segments_join hne h, hlast, Option.some.injEq] at hjoin
  exact hjoin.symm

/-- A path below a directory ends as it did. -/
theorem afterLast_join (dir p : Chars) : Text.afterLast '/' (join dir p) = Text.afterLast '/' p := by
  unfold join
  split
  · rfl
  · split
    · rename_i hslash
      obtain ⟨d, rfl⟩ := List.getLast?_eq_some_iff.1 hslash
      rw [List.append_assoc, List.singleton_append, Text.afterLast_append_cons]
    · exact Text.afterLast_append_cons '/' dir p

/-- A path that ends in a plain segment has that as its last step. -/
theorem exists_steps_eq {p : Chars} (h : IsPlain (Text.afterLast '/' p)) :
    ∃ init, steps p = init ++ [.name (Text.afterLast '/' p)] := by
  obtain ⟨init, hp⟩ := exists_segments_eq p
  have hstep : step? (Text.afterLast '/' p) = some (.name (Text.afterLast '/' p)) := step?_eq_name_iff.2 ⟨rfl, h⟩
  rw [steps, hp, List.filterMap_append, ← List.append_assoc]
  exact ⟨_, congrArg _ (by simp [hstep])⟩

/-- The segment that a step was made of. -/
def Step.segment? : Step → Option Chars
  | .name s => some s
  | .up => some ['.', '.']
  | _ => none

theorem bind_segment?_step? (s : Chars) :
    (step? s).bind Step.segment? = if (step? s).isSome then some s else none := by
  unfold step?
  split
  · rfl
  · split
    · rename_i hup
      rw [hup]
      rfl
    · rfl

/-- The steps of a path tell the segments that mean anything. -/
theorem filterMap_segment?_steps (p : Chars) :
    (steps p).filterMap Step.segment? = (segments p).filter fun s => (step? s).isSome := by
  have hlead : (if isAbsolute p then [.root] else if startsHere p then [.here] else [] : List Step).filterMap
      Step.segment? = [] := by
    split
    · rfl
    · split <;> rfl
  rw [steps, List.filterMap_append, hlead, List.nil_append, List.filterMap_filterMap]
  simp only [bind_segment?_step?]
  induction segments p with
  | nil => rfl
  | cons s ss ih =>
    rw [List.filterMap_cons, List.filter_cons, ih]
    cases (step? s).isSome <;> rfl

end Path

/-! ## Files -/

namespace FileTree

variable {t : FileTree} {p q : Chars} {f g : File}

theorem walk_of_file (h : t.file p = .ok f) :
    ∃ loc, t.walk (t.startOf p) (Path.segments p) = .ok (loc, .file f) := by
  unfold file locate at h
  split at h
  · rename_i loc g hl
    obtain rfl : g = f := Except.ok.inj h
    split at hl
    · cases hl
    · exact ⟨loc, hl⟩
  · cases h
  · cases h

/-- The path of a file ends in a plain segment. -/
theorem isPlain_of_file (h : t.file p = .ok f) : Path.IsPlain (Text.afterLast '/' p) := by
  obtain ⟨loc, hwalk⟩ := walk_of_file h
  obtain ⟨init, hp⟩ := Path.exists_segments_eq p
  rw [hp] at hwalk
  exact isPlain_of_walk hwalk

/-- Segments that mean nothing can be left out on a way that leads somewhere. -/
theorem walk_filter {loc loc' : Location} {xs : List Chars} {e : Entry} (h : t.walk loc xs = .ok (loc', e)) :
    t.walk loc (xs.filter fun s => (Path.step? s).isSome) = .ok (loc', e) := by
  induction xs generalizing loc with
  | nil => exact h
  | cons x xs ih =>
    rw [walk] at h
    rw [List.filter_cons]
    split at h
    · rename_i hidle
      have hstep : Path.step? x = none := if_pos hidle
      rw [hstep]
      exact ih h
    · rename_i hidle
      have hstep : (Path.step? x).isSome = true := by
        unfold Path.step?
        rw [if_neg hidle]
        split <;> rfl
      rw [if_pos hstep, walk, if_neg hidle]
      split at h
      · rename_i hup
        rw [if_pos hup]
        exact ih h
      · rename_i hup
        rw [if_neg hup]
        split at h
        · cases h
        · rename_i hname
          rw [if_neg hname]
          split at h
          · cases h
          · exact ih h
          · split at h
            · rename_i hxs
              subst hxs
              exact h
            · cases h

theorem startOf_eq_of_steps (hsteps : Path.steps p = Path.steps q) : t.startOf p = t.startOf q := by
  have habsolute : Path.isAbsolute p = Path.isAbsolute q := by
    rw [Bool.eq_iff_iff, ← Path.root_mem_steps, ← Path.root_mem_steps, hsteps]
  rw [startOf, startOf, habsolute]

/-- Paths with the same steps lead to the same file. -/
theorem file_eq_of_steps (hsteps : Path.steps p = Path.steps q) (hp : t.file p = .ok f) (hq : t.file q = .ok g) :
    f = g := by
  obtain ⟨loc, hwalk⟩ := walk_of_file hp
  obtain ⟨loc', hwalk'⟩ := walk_of_file hq
  have hmeant := walk_filter hwalk
  rw [← Path.filterMap_segment?_steps, hsteps, Path.filterMap_segment?_steps,
    startOf_eq_of_steps hsteps, walk_filter hwalk'] at hmeant
  simp only [Except.ok.injEq, Prod.mk.injEq, Entry.file.injEq] at hmeant
  exact hmeant.2.symm

end FileTree

/-! ## Names that are tried -/

namespace TemplateName

/-- A regular name ends as the requested one does, if that ends in a plain segment, up to the extension. -/
theorem afterLast_normalize {extension name normalized : Chars} (hslash : '/' ∉ extension)
    (hplain : Path.IsPlain (Text.afterLast '/' name)) (h : normalize extension name = .ok normalized) :
    Text.afterLast '/' normalized =
      if (Text.afterLast '/' name).contains '.' then Text.afterLast '/' name
      else Text.afterLast '/' name ++ '.' :: extension := by
  have hlegacy : '/' ∉ '.' :: extension := by simpa using hslash
  unfold normalize at h
  split at h
  · cases h
  split at h
  · cases h
  rename_i segments hsegments
  have hroot : Path.Step.root ∉ Path.steps name := fun hmem => by
    rw [plainSegments_eq_none (.inl hmem)] at hsegments
    cases hsegments
  have hup : Path.Step.up ∉ Path.steps name := fun hmem => by
    rw [plainSegments_eq_none (.inr hmem)] at hsegments
    cases hsegments
  obtain ⟨init, hsteps⟩ := Path.exists_steps_eq hplain
  have hnames := plainSegments_eq hroot hup
  rw [hsegments, Option.some.injEq] at hnames
  have hlast : segments.getLast? = some (Text.afterLast '/' name) := by
    rw [hnames, hsteps, List.filterMap_append]
    exact List.getLast?_concat
  have hclean : ∀ s ∈ segments, '/' ∉ s := by
    intro s hs
    rw [hnames] at hs
    obtain ⟨step, hstep, hname⟩ := List.mem_filterMap.1 hs
    cases step <;> simp at hname
    exact Path.slash_not_mem_of_mem_segments (Path.name_mem_steps.1 (hname ▸ hstep)).1
  simp only [hlast, Except.ok.injEq] at h
  rw [← h]
  split
  · exact Path.afterLast_join_of_getLast? hclean hlast
  · rw [Text.afterLast_append hlegacy, Path.afterLast_join_of_getLast? hclean hlast]

/-- Every variant of a name ends as the name does. -/
theorem afterLast_of_mem_variants {name variant : Chars} (h : variant ∈ variants name) :
    Text.afterLast '/' variant = Text.afterLast '/' name := by
  unfold variants at h
  simp only at h
  split at h
  · rw [List.mem_singleton.1 h]
  · rename_i hlength
    rw [mem_dedupe, List.mem_cons, List.mem_map] at h
    obtain rfl | ⟨k, hk, rfl⟩ := h
    · rfl
    · apply Path.afterLast_join_of_getLast?
      · intro p hp
        exact Path.slash_not_mem_of_mem_segments (List.mem_of_mem_drop hp)
      · have hlt : k < (Path.segments name).length := by
          simp only [List.mem_cons, List.not_mem_nil, or_false] at hk
          omega
        rw [List.getLast?_drop, if_neg (by omega), Path.getLast?_segments]

/-- The last segments of a name and of a file that is tried for it: they are the same, or one is the native
counterpart of the other. -/
inductive Counterparts (extension : Chars) : Chars → Chars → Prop where
  | same (s : Chars) : Counterparts extension s s
  | legacy (stem : Chars) :
    Counterparts extension (stem ++ '.' :: extension ++ ".twig".toList) (stem ++ '.' :: extension)
  | native (stem : Chars) :
    Counterparts extension (stem ++ '.' :: extension) (stem ++ '.' :: extension ++ ".twig".toList)

theorem counterparts_of_mem_candidates {extension name candidate : Chars} (hslash : '/' ∉ extension)
    (h : candidate ∈ candidates extension name) :
    Counterparts extension (Text.afterLast '/' name) (Text.afterLast '/' candidate) := by
  have hlegacy : '/' ∉ '.' :: extension := by simpa using hslash
  have htwig : '/' ∉ ".twig".toList := by decide
  rw [candidates_eq, List.mem_cons, Option.mem_toList] at h
  obtain rfl | h := h
  · exact .same _
  · unfold counterpart? at h
    split at h
    · rename_i stem hstem
      rw [Text.before?_eq_some_iff, ← List.append_assoc] at hstem
      obtain rfl := Option.some.inj h
      rw [hstem, Text.afterLast_append htwig, Text.afterLast_append hlegacy]
      exact .legacy _
    · split at h
      · rename_i hends
        obtain ⟨stem, rfl⟩ := Text.endsWith_iff.1 hends
        obtain rfl := Option.some.inj h
        rw [Text.afterLast_append htwig, Text.afterLast_append hlegacy]
        exact .native _
      · cases h

end TemplateName

namespace Resolver

variable {r : Resolver} {t : FileTree} {name found path : Chars}

/-- What is located was tried for a regular name: one of its variants, or the counterpart of one, in a directory
of the search path. -/
theorem exists_of_locate (h : r.locate t name = .ok (found, path)) :
    ∃ normalized variant dir, TemplateName.normalize r.translator.extension name = .ok normalized ∧
      variant ∈ TemplateName.variants normalized ∧
      found ∈ TemplateName.candidates r.translator.extension variant ∧ path = Path.join dir found := by
  obtain ⟨-, normalized, hname, hplace⟩ := locate_eq_ok h
  simp only [places, List.mem_flatMap, List.mem_map, Prod.mk.injEq] at hplace
  obtain ⟨variant, hvariant, candidate, hcandidate, dir, -, rfl, rfl⟩ := hplace
  exact ⟨normalized, variant, dir, hname, hvariant, hcandidate, rfl⟩

theorem file_of_locate (h : r.locate t name = .ok (found, path)) : ∃ f, t.file path = .ok f := by
  obtain ⟨-, f, -, hf⟩ := FileTree.isFile_eq_true (locate_eq_ok h).1
  exact ⟨f, hf⟩

/-- The last segment of a path is that of the file that was found. -/
theorem afterLast_of_locate (h : r.locate t name = .ok (found, path)) :
    Text.afterLast '/' path = Text.afterLast '/' found := by
  obtain ⟨normalized, variant, dir, -, -, -, rfl⟩ := exists_of_locate h
  exact Path.afterLast_join dir found

/-- A file is read as a legacy one if its path has the extension, whatever it was asked for as. -/
theorem isLegacy_iff_of_locate (hslash : '/' ∉ r.translator.extension) (h : r.locate t name = .ok (found, path)) :
    r.isLegacy found = true ↔ '.' :: r.translator.extension <:+ Text.afterLast '/' path := by
  have hlegacy : '/' ∉ '.' :: r.translator.extension := by simpa using hslash
  rw [isLegacy, TemplateName.isLegacy, Text.endsWith_iff, afterLast_of_locate h, Text.suffix_afterLast_iff hlegacy]

/-- Names of one path that is read in one way are answered with one template, up to the names it was asked for and
found as, with the cache as it was or as it is after the first answer. -/
theorem resolve_of_path {name' found' : Chars} (h : r.locate t name = .ok (found, path))
    (h' : r.locate t name' = .ok (found', path)) (hlegacy : r.isLegacy found = r.isLegacy found') {cache : Cache}
    {template : ResolvedTemplate} (hresolve : (r.resolve t cache name).1 = .ok template) :
    (r.resolve t cache name').1 = .ok { template with requested := name', name := found' } ∧
      (r.resolve t (r.resolve t cache name).2 name').1 =
        .ok { template with requested := name', name := found' } := by
  obtain ⟨f, hf, hfirst⟩ := resolve_of_locate cache h
  have hfile (c : Cache) := resolve_of_locate c h'
  rw [hf] at hfile
  obtain ⟨g, hg, hsecond⟩ := hfile cache
  obtain rfl := Except.ok.inj hg
  obtain ⟨g, hg, hthird⟩ := hfile (r.resolve t cache name).2
  obtain rfl := Except.ok.inj hg
  rw [hsecond, hthird, ← hlegacy]
  rw [hfirst] at hresolve ⊢
  cases htext : f.text with
  | none =>
    rw [htext] at hresolve
    cases hresolve
  | some raw =>
    simp only [htext, Except.ok.injEq] at hresolve ⊢
    rw [← hresolve]
    cases r.isLegacy found with
    | false => exact ⟨rfl, rfl⟩
    | true => exact ⟨rfl, by simp [Cache.getOrTranslate_again]⟩

/-- Names of one path have one last segment of it. -/
theorem afterLast_eq_of_steps {name' found' path' : Chars} (h : r.locate t name = .ok (found, path))
    (h' : r.locate t name' = .ok (found', path')) (hsteps : Path.steps path = Path.steps path') :
    Text.afterLast '/' path = Text.afterLast '/' path' := by
  obtain ⟨f, hf⟩ := file_of_locate h
  obtain ⟨f', hf'⟩ := file_of_locate h'
  obtain ⟨init, hinit⟩ := Path.exists_steps_eq (FileTree.isPlain_of_file hf)
  obtain ⟨init', hinit'⟩ := Path.exists_steps_eq (FileTree.isPlain_of_file hf')
  rw [hinit, hinit'] at hsteps
  simpa using (List.append_inj' hsteps rfl).2

end Resolver

/-! ## Names and escaping -/

namespace Template.Escaping

theorem ofName_html (stem : Chars) : ofName (stem ++ ".html".toList) = .markup := by
  have hbefore (ending : String) (h : Text.after? ending.toList.reverse ("lmth.".toList ++ stem.reverse) = none) :
      Text.before? ending.toList (stem ++ ".html".toList) = none := by
    rw [Text.before?, List.reverse_append, show ".html".toList.reverse = "lmth.".toList from rfl, h, Option.map_none]
  have hendings : templateEndings.findSome? (fun e => Text.before? e.toList (stem ++ ".html".toList)) = none := by
    simp only [templateEndings, List.findSome?_cons, hbefore ".j2" rfl, hbefore ".jinja2" rfl, hbefore ".jinja" rfl,
      List.findSome?_nil]
  have hextension : Text.afterLast '.' (stem ++ ".html".toList) = "html".toList :=
    Text.afterLast_append_cons '.' stem "html".toList
  have hmarkup : ofExtension (stem ++ ".html".toList) = .markup := by
    rw [ofExtension, hendings, Option.getD_none, hextension]
    rfl
  unfold ofName
  simp only [hmarkup, ite_self]

theorem ofName_html_twig (stem : Chars) : ofName (stem ++ ".html".toList ++ ".twig".toList) = .markup := by
  have hends : Text.endsWith ".html.twig".toList
      (Text.afterLast '/' (stem ++ ".html".toList ++ ".twig".toList)) = true := by
    rw [Text.endsWith_iff, Text.suffix_afterLast_iff (by decide)]
    exact ⟨stem, (List.append_assoc stem ".html".toList ".twig".toList).symm⟩
  simp only [ofName, hends, Bool.or_true, if_true]

end Template.Escaping

open Template (Escaping)

/-- A name whose last segment tells its extension: it is a plain one, and does not end in what only says that it is
a template. -/
structure TemplateName.Telling (name : Chars) : Prop where
  plain : Path.IsPlain (Text.afterLast '/' name)
  bare : ∀ ending ∈ Escaping.templateEndings, ¬ ending.toList <:+ Text.afterLast '/' name

namespace TemplateName.Telling

variable {name : Chars}

/-- Such a name is escaped by its last segment. -/
theorem ofName_eq (h : Telling name) : Escaping.ofName name = Escaping.ofName (Text.afterLast '/' name) := by
  have hlast : Text.afterLast '/' (Text.afterLast '/' name) = Text.afterLast '/' name :=
    Text.afterLast_of_not_mem (Text.not_mem_afterLast '/' name)
  unfold Escaping.ofName
  simp only [hlast]
  split
  · rfl
  · rename_i hdotted
    have hdot : '.' ∈ Text.afterLast '/' name := by
      by_contra hdot
      simp [hdot] at hdotted
    have hbefore (s : Chars) (hs : Text.afterLast '/' s = Text.afterLast '/' name) :
        Escaping.templateEndings.findSome? (fun e => Text.before? e.toList s) = none := by
      rw [List.findSome?_eq_none_iff]
      intro ending hending
      have hslash : '/' ∉ ending.toList := by
        revert ending
        decide
      rw [Option.eq_none_iff_forall_ne_some]
      intro front hfront
      apply h.bare ending hending
      rw [← hs, Text.suffix_afterLast_iff hslash, Text.before?_eq_some_iff.1 hfront]
      exact List.suffix_append _ _
    obtain ⟨front, hname, -⟩ := Text.eq_append_afterLast '/' name
    have hextension : Text.afterLast '.' name = Text.afterLast '.' (Text.afterLast '/' name) := by
      conv => lhs; rw [hname]
      exact Text.afterLast_append_of_mem hdot front
    rw [Escaping.ofExtension, Escaping.ofExtension, hbefore name rfl, hbefore _ hlast, Option.getD_none,
      Option.getD_none, hextension]

end TemplateName.Telling

namespace Resolver

variable {r : Resolver} {t : FileTree} {name found path : Chars}

/-- Where legacy templates are HTML, a name whose last segment tells its extension is escaped as the path is that
it leads to. -/
theorem ofName_of_locate (hhtml : r.translator.extension = "html".toList) (hname : TemplateName.Telling name)
    (h : r.locate t name = .ok (found, path)) :
    Escaping.ofName name = Escaping.ofName (Text.afterLast '/' path) := by
  obtain ⟨normalized, variant, dir, hnormalized, hvariant, hcandidate, -⟩ := exists_of_locate h
  have hslash : '/' ∉ r.translator.extension := by
    rw [hhtml]
    decide
  have hvariantLast := TemplateName.afterLast_of_mem_variants hvariant
  rw [TemplateName.afterLast_normalize hslash hname.plain hnormalized, hhtml] at hvariantLast
  have hcounterparts := TemplateName.counterparts_of_mem_candidates hslash hcandidate
  rw [← afterLast_of_locate h, hhtml, hvariantLast] at hcounterparts
  have hclean : Text.afterLast '/' (Text.afterLast '/' name) = Text.afterLast '/' name :=
    Text.afterLast_of_not_mem (Text.not_mem_afterLast '/' name)
  rw [hname.ofName_eq]
  generalize Text.afterLast '/' name = last at hcounterparts hclean ⊢
  generalize Text.afterLast '/' path = other at hcounterparts ⊢
  -- both are markup, unless the name has an extension and the path ends in the same segment
  have hmarkup : Escaping.ofName other = .markup → Escaping.ofName last = .markup →
      Escaping.ofName last = Escaping.ofName other := fun hother hlast => hlast.trans hother.symm
  split at hcounterparts
  · cases hcounterparts with
    | same => rfl
    | legacy stem => exact hmarkup (Escaping.ofName_html stem) (Escaping.ofName_html_twig stem)
    | native stem => exact hmarkup (Escaping.ofName_html_twig stem) (Escaping.ofName_html stem)
  · rename_i hdot
    have hlast : Escaping.ofName last = .markup := Escaping.ofName_of_no_dot (by rw [hclean]; simpa using hdot)
    refine hmarkup ?_ hlast
    generalize htried : last ++ '.' :: "html".toList = tried at hcounterparts
    cases hcounterparts with
    | same =>
      rw [← htried]
      exact Escaping.ofName_html last
    | legacy stem => exact Escaping.ofName_html stem
    | native stem => exact Escaping.ofName_html_twig stem

end Resolver
end ViewBridge
