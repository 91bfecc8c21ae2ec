import ViewBridge.Proofs.Lookup.Alias
/-!
# Names that were found

What a name was found as is a name too, and under that name the same file is found again: it is regular already, so
it is tried first of all, and the first directory that has it is the one that had it before. Names that differ only in
segments that mean nothing have one regular form, so they are one name.

Results:
* `TemplateName.normalize_of_relative`: a relative name counts by the segments of it that mean anything.
* `TemplateName.Regular.normalize_eq`: a regular name stays as it is.
* `Resolver.locate_of_locate`: what was located is located again under the name it was found as.
* `Resolver.resolve_stable`: what was found is found again, and so is what is asked for under another spelling.
-/
namespace ViewBridge

/-! ## Joined texts -/

namespace Text

variable {sep p : Chars} {ps : List Chars} {c : Char}

theorem mem_of_mem_join (h : c ∈ join sep ps) : c ∈ sep ∨ ∃ p ∈ ps, c ∈ p := by
  induction ps with
  | nil => cases h
  | cons p ps ih =>
    by_cases hps : ps = []
    · exact .inr ⟨p, List.mem_cons_self, by simpa [hps, join] using h⟩
    · rw [join_cons sep p hps, List.mem_append, List.mem_append] at h
      rcases h with (h | h) | h
      · exact .inr ⟨p, List.mem_cons_self, h⟩
      · exact .inl h
      · obtain hc | ⟨q, hq, hc⟩ := ih h
        · exact .inl hc
        · exact .inr ⟨q, List.mem_cons_of_mem p hq, hc⟩

theorem mem_join_of_mem (hp : p ∈ ps) (hc : c ∈ p) : c ∈ join sep ps := by
  induction ps with
  | nil => cases hp
  | cons q ps ih =>
    by_cases hps : ps = []
    · rw [hps, List.mem_singleton] at hp
      rw [hps, ← hp]
      exact hc
    · rw [join_cons sep q hps, List.mem_append, List.mem_append]
      rcases List.mem_cons.1 hp with rfl | hp
      · exact .inl (.inl hc)
      · exact .inr (ih hp)

theorem join_drop_suffix (sep : Chars) (ps : List Chars) (n : Nat) : join sep (ps.drop n) <:+ join sep ps := by
  induction ps generalizing n with
  | nil => simp
  | cons p ps ih =>
    cases n with
    | zero => exact List.suffix_rfl
    | succ n =>
      refine (ih n).trans ?_
      by_cases hps : ps = []
      · rw [hps]
        exact List.nil_suffix
      · rw [join_cons sep p hps]
        exact List.suffix_append _ _

end Text

/-! ## Segments that mean something -/

namespace Path

/-- The segments of a path that are neither empty nor a single dot. -/
def meant (p : Chars) : List Chars := (segments p).filter fun s => s ≠ [] ∧ s ≠ ['.']

theorem isSome_step? (s : Chars) : (step? s).isSome = decide (s ≠ [] ∧ s ≠ ['.']) := by
  unfold step?
  split
  · rename_i hidle
    rw [Option.isSome_none, eq_comm, decide_eq_false_iff_not]
    tauto
  · rename_i hidle
    rw [not_or] at hidle
    split <;> simp [hidle]

theorem filterMap_segment?_eq_meant (p : Chars) : (steps p).filterMap Step.segment? = meant p := by
  simp only [filterMap_segment?_steps, meant, isSome_step?]

theorem mem_meant {p s : Chars} : s ∈ meant p ↔ s ∈ segments p ∧ s ≠ [] ∧ s ≠ ['.'] := by
  simp [meant]

theorem meant_append (p q : Chars) : meant (p ++ '/' :: q) = meant p ++ meant q := by
  rw [meant, segments_append, List.filter_append]
  rfl

/-- A slash at the end means nothing. -/
theorem meant_append_slash (p : Chars) : meant (p ++ ['/']) = meant p := by
  rw [meant_append]
  exact List.append_nil _

/-- A slash that is repeated means nothing. -/
theorem meant_append_slashes (p q : Chars) : meant (p ++ '/' :: '/' :: q) = meant (p ++ '/' :: q) := by
  rw [meant_append, meant_append, ← List.nil_append ('/' :: q), meant_append]
  rfl

/-- A single dot between slashes means nothing. -/
theorem meant_append_dot (p q : Chars) : meant (p ++ '/' :: '.' :: '/' :: q) = meant (p ++ '/' :: q) := by
  rw [meant_append, meant_append, ← List.singleton_append, meant_append]
  rfl

/-- A single dot in front means nothing. -/
theorem meant_dot (q : Chars) : meant ('.' :: '/' :: q) = meant q := meant_append ['.'] q

/-- A character that paths are not made of stands in a segment that means something. -/
theorem mem_iff_meant {p : Chars} {c : Char} (hslash : c ≠ '/') (hdot : c ≠ '.') : c ∈ p ↔ ∃ s ∈ meant p, c ∈ s := by
  constructor
  · intro h
    rw [← join_segments p] at h
    obtain ⟨s, hs, hc⟩ := (Text.mem_of_mem_join h).resolve_left fun hc => hslash (List.mem_singleton.1 hc)
    refine ⟨s, mem_meant.2 ⟨hs, ?_, ?_⟩, hc⟩
    · exact List.ne_nil_of_mem hc
    · rintro rfl
      exact hdot (List.mem_singleton.1 hc)
  · rintro ⟨s, hs, hc⟩
    rw [← join_segments p]
    exact Text.mem_join_of_mem (mem_meant.1 hs).1 hc

theorem Descends.meant_eq {p : Chars} (h : Descends p) : meant p = segments p :=
  List.filter_eq_self.2 fun s hs => decide_eq_true ⟨(h s hs).1, (h s hs).2.1⟩

end Path

/-! ## Regular names -/

namespace TemplateName

theorem plainSegments_of_relative {name : Chars} (habsolute : Path.isAbsolute name = false) :
    plainSegments (Path.steps name) =
      if ['.', '.'] ∈ Path.meant name then none else some (Path.meant name) := by
  have hup : ['.', '.'] ∈ Path.meant name ↔ Path.Step.up ∈ Path.steps name := by
    rw [Path.mem_meant, Path.up_mem_steps]
    simp
  have hroot : Path.Step.root ∉ Path.steps name := by simp [Path.root_mem_steps, habsolute]
  split
  · rename_i h
    exact plainSegments_eq_none (.inr (hup.1 h))
  · rename_i h
    rw [plainSegments_eq hroot (mt hup.2 h), ← Path.filterMap_segment?_eq_meant]
    refine congrArg some (List.filterMap_congr fun step hstep => ?_)
    cases step with
    | up => exact absurd (hup.2 hstep) h
    | root => rfl
    | here => rfl
    | name s => rfl

/-- A relative name counts by the segments of it that mean anything. -/
theorem normalize_of_relative {name : Chars} (habsolute : Path.isAbsolute name = false)
    (hblank : name.all Text.isBlank = false) (extension : Chars) :
    normalize extension name =
      if (∃ s ∈ Path.meant name, '\\' ∈ s) ∨ ['.', '.'] ∈ Path.meant name then .error (.invalidTemplateName name)
      else match (Path.meant name).getLast? with
        | none => .error (.invalidTemplateName name)
        | some last => .ok (if last.contains '.' then Text.join ['/'] (Path.meant name)
            else Text.join ['/'] (Path.meant name) ++ '.' :: extension) := by
  have hback : name.contains '\\' = decide (∃ s ∈ Path.meant name, '\\' ∈ s) := by
    rw [Bool.eq_iff_iff, List.contains_iff_mem, decide_eq_true_iff]
    exact Path.mem_iff_meant (by decide) (by decide)
  rw [normalize, hblank, habsolute, hback, plainSegments_of_relative habsolute]
  by_cases hmem : ∃ s ∈ Path.meant name, '\\' ∈ s
  · simp [hmem]
  · by_cases hup : ['.', '.'] ∈ Path.meant name
    · simp [hup]
    · cases hlast : (Path.meant name).getLast? <;>
        simp only [hmem, hup, hlast, decide_false, Bool.or_self, Bool.false_eq_true, if_false, or_self]

/-- Names that are written alike up to segments that mean nothing are refused alike, or have one regular form. -/
theorem normalize_alike {a b : Chars} (ha : Path.isAbsolute a = false) (hb : Path.isAbsolute b = false)
    (hblank : a.all Text.isBlank = false) (hblank' : b.all Text.isBlank = false)
    (hmeant : Path.meant a = Path.meant b) (extension : Chars) :
    normalize extension b = (normalize extension a).mapError fun _ => .invalidTemplateName b := by
  rw [normalize_of_relative ha hblank, normalize_of_relative hb hblank', hmeant]
  split
  · rfl
  · cases (Path.meant b).getLast? <;> rfl

/-- A variant of a name is an ending of it. -/
theorem suffix_of_mem_variants {name v : Chars} (h : v ∈ variants name) : v <:+ name := by
  unfold variants at h
  simp only at h
  split at h
  · obtain rfl := List.mem_singleton.1 h
    exact List.suffix_rfl
  · rw [mem_dedupe, List.mem_cons, List.mem_map] at h
    obtain rfl | ⟨k, -, rfl⟩ := h
    · exact List.suffix_rfl
    · conv => rhs; rw [← Path.join_segments name]
      exact Text.join_drop_suffix ['/'] (Path.segments name) k

/-- The name itself is its first variant. -/
theorem head?_variants (name : Chars) : (variants name).head? = some name := by
  have hfold (xs seen : List Chars) :
      seen <+: xs.foldl (fun seen x => if seen.contains x then seen else seen ++ [x]) seen := by
    induction xs generalizing seen with
    | nil => exact List.prefix_rfl
    | cons x xs ih =>
      rw [List.foldl_cons]
      refine List.IsPrefix.trans ?_ (ih _)
      split
      · exact List.prefix_rfl
      · exact List.prefix_append _ _
  unfold variants
  simp only
  split
  · rfl
  · obtain ⟨others, hothers⟩ := hfold
      ([(Path.segments name).length - 1, 1, (Path.segments name).length - 2].map fun k =>
        Text.join ['/'] ((Path.segments name).drop k)) [name]
    rw [dedupe, List.foldl_cons]
    exact congrArg List.head? hothers.symm

/-- A regular name: every segment is plain, the last one has an extension, and there is no backslash. -/
structure Regular (name : Chars) : Prop where
  descends : Path.Descends name
  dotted : '.' ∈ Text.afterLast '/' name
  straight : '\\' ∉ name

namespace Regular

variable {name : Chars}

/-- A regular name stays as it is. -/
theorem normalize_eq (h : Regular name) (extension : Chars) : normalize extension name = .ok name := by
  have hmeant := h.descends.meant_eq
  have hdot : '.' ∈ name := by
    obtain ⟨front, hname, -⟩ := Text.eq_append_afterLast '/' name
    rw [hname]
    exact List.mem_append_right front h.dotted
  have hblank : name.all Text.isBlank = false := by
    rw [List.all_eq_false]
    exact ⟨'.', hdot, by decide⟩
  have hguard : ¬ ((∃ s ∈ Path.meant name, '\\' ∈ s) ∨ ['.', '.'] ∈ Path.meant name) := by
    rw [← Path.mem_iff_meant (by decide) (by decide), not_or, hmeant]
    exact ⟨h.straight, fun hup => (h.descends _ hup).2.2 rfl⟩
  rw [normalize_of_relative h.descends.isAbsolute hblank, if_neg hguard, hmeant, Path.getLast?_segments]
  simp only [List.contains_iff_mem.2 h.dotted, if_true, Path.join_segments]

/-- What a name is made into is regular. -/
theorem of_normalize {extension normalized : Chars} (hne : extension ≠ []) (hslash : '/' ∉ extension)
    (hback : '\\' ∉ extension) (h : normalize extension name = .ok normalized) : Regular normalized := by
  have hdescends := descends_of_normalize hne hslash h
  have husable : ¬ Unusable name := fun hu => by simp [normalize_of_unusable hu] at h
  have hblank : name.all Text.isBlank = false := by
    by_contra hb
    exact husable (.blank (by simpa using hb))
  have habsolute : Path.isAbsolute name = false := by
    by_contra ha
    exact husable (.absolute (by simpa using ha))
  rw [normalize_of_relative habsolute hblank] at h
  split at h
  · cases h
  · rename_i hguard
    split at h
    · cases h
    · rename_i last hlast
      have hclean : ∀ s ∈ Path.meant name, '/' ∉ s := fun s hs =>
        Path.slash_not_mem_of_mem_segments (Path.mem_meant.1 hs).1
      have hjoined : '\\' ∉ Text.join ['/'] (Path.meant name) := fun hmem =>
        (Text.mem_of_mem_join hmem).elim (by decide) fun hmem => hguard (.inl hmem)
      rw [Except.ok.injEq] at h
      subst h
      suffices hends : _ ∧ _ from ⟨hdescends, hends.1, hends.2⟩
      split
      · rename_i hdot
        rw [Path.afterLast_join_of_getLast? hclean hlast]
        exact ⟨List.contains_iff_mem.1 hdot, hjoined⟩
      · rw [Text.afterLast_append (by simpa using hslash)]
        exact ⟨by simp, by simp [hjoined, hback]⟩

theorem variant (h : Regular name) {v : Chars} (hv : v ∈ variants name) : Regular v := by
  refine ⟨descends_of_mem_variants h.descends hv, ?_, fun hmem => h.straight ((suffix_of_mem_variants hv).mem hmem)⟩
  rw [afterLast_of_mem_variants hv]
  exact h.dotted

theorem candidate {extension c : Chars} (h : Regular name) (hslash : '/' ∉ extension) (hback : '\\' ∉ extension)
    (hc : c ∈ candidates extension name) (hdescends : Path.Descends c) : Regular c := by
  refine ⟨hdescends, ?_, fun hmem => ?_⟩
  · have hlast := counterparts_of_mem_candidates hslash hc
    have hdot := h.dotted
    generalize Text.afterLast '/' name = last at hlast hdot
    generalize Text.afterLast '/' c = other at hlast ⊢
    cases hlast with
    | same => exact hdot
    | legacy stem => simp
    | native stem => simp
  · have hstraight := h.straight
    rw [candidates_eq, List.mem_cons, Option.mem_toList] at hc
    obtain rfl | hc := hc
    · exact hstraight hmem
    · unfold counterpart? at hc
      split at hc
      · rename_i stem hstem
        rw [Text.before?_eq_some_iff.1 hstem] at hstraight
        obtain rfl := Option.some.inj hc
        exact hstraight (by simpa [hback] using hmem)
      · split at hc
        · obtain rfl := Option.some.inj hc
          exact hstraight (by simpa using hmem)
        · cases hc

end Regular
end TemplateName

/-! ## Locating again -/

namespace Resolver

variable {r : Resolver} {t : FileTree} {name found path : Chars}

/-- Variants are tried in their order, the candidates of each in theirs, and each candidate on the search path. -/
theorem locate_eq (r : Resolver) (t : FileTree) (name : Chars) :
    r.locate t name = match TemplateName.normalize r.translator.extension name with
      | .error e => .error e
      | .ok normalized =>
        match (TemplateName.variants normalized).findSome? fun variant =>
            (TemplateName.candidates r.translator.extension variant).findSome? fun candidate =>
              (r.searchPath.find? t candidate).map fun path => (candidate, path) with
        | some place => .ok place
        | none => .error (.templateNotFound name r.searchPath.dirs) := by
  have hfind (candidate : Chars) :
      (r.searchPath.dirs.map fun dir => (candidate, Path.join dir candidate)).find? (fun place => t.isFile place.2) =
        (r.searchPath.find? t candidate).map fun path => (candidate, path) := by
    rw [SearchPath.find?, List.find?_map, List.find?_map, Option.map_map]
    rfl
  rw [locate]
  cases TemplateName.normalize r.translator.extension name with
  | error e => rfl
  | ok normalized =>
    cases hanswer : (TemplateName.variants normalized).findSome? fun variant =>
      (TemplateName.candidates r.translator.extension variant).findSome? fun candidate =>
        (r.searchPath.find? t candidate).map fun path => (candidate, path)
    all_goals simp only [places, List.find?_flatMap, hfind, hanswer]

/-- What is located is what the search path has under its name. -/
theorem find?_of_locate (h : r.locate t name = .ok (found, path)) : r.searchPath.find? t found = some path := by
  rw [locate_eq] at h
  split at h
  · cases h
  · split at h
    · rename_i place hplace
      rw [Except.ok.inj h] at hplace
      obtain ⟨variant, -, hvariant⟩ := List.exists_of_findSome?_eq_some hplace
      obtain ⟨candidate, -, hcandidate⟩ := List.exists_of_findSome?_eq_some hvariant
      obtain ⟨p, hp, heq⟩ := Option.map_eq_some_iff.1 hcandidate
      obtain ⟨rfl, rfl⟩ := Prod.mk.injEq .. ▸ heq
      exact hp
    · cases h

/-- A regular name of a file is tried first. -/
theorem locate_of_regular (hname : TemplateName.Regular name) (h : r.searchPath.find? t name = some path) :
    r.locate t name = .ok (name, path) := by
  obtain ⟨others, hvariants⟩ := List.head?_eq_some_iff.1 (TemplateName.head?_variants name)
  rw [locate_eq, hname.normalize_eq]
  simp only [hvariants, TemplateName.candidates_eq, List.findSome?_cons, h, Option.map_some]

theorem regular_of_locate (hne : r.translator.extension ≠ []) (hslash : '/' ∉ r.translator.extension)
    (hback : '\\' ∉ r.translator.extension) (h : r.locate t name = .ok (found, path)) :
    TemplateName.Regular found := by
  obtain ⟨normalized, variant, dir, hnormalized, hvariant, hcandidate, -⟩ := exists_of_locate h
  obtain ⟨-, -, -, -, hdescends, -⟩ := confined_of_locate hne hslash h
  exact ((TemplateName.Regular.of_normalize hne hslash hback hnormalized).variant hvariant).candidate hslash hback
    hcandidate hdescends

/-- What was located is located again under the name it was found as. -/
theorem locate_of_locate (hne : r.translator.extension ≠ []) (hslash : '/' ∉ r.translator.extension)
    (hback : '\\' ∉ r.translator.extension) (h : r.locate t name = .ok (found, path)) :
    r.locate t found = .ok (found, path) :=
  locate_of_regular (regular_of_locate hne hslash hback h) (find?_of_locate h)

/-! ## Resolving again -/

/-- A template that was found is found again under its own name, with the cache as it was or as it is now. -/
theorem resolve_of_resolve (hne : r.translator.extension ≠ []) (hslash : '/' ∉ r.translator.extension)
    (hback : '\\' ∉ r.translator.extension) {cache : Cache} {template : ResolvedTemplate}
    (h : (r.resolve t cache name).1 = .ok template) :
    (r.resolve t cache template.name).1 = .ok { template with requested := template.name } ∧
      (r.resolve t (r.resolve t cache name).2 template.name).1 =
        .ok { template with requested := template.name } := by
  have hlocate := locate_of_resolve h
  exact resolve_of_path hlocate (locate_of_locate hne hslash hback hlocate) rfl h

end Resolver

/-! ## Other spellings -/

/-- The same failure for another name. -/
def Error.about (name : Chars) : Error → Error
  | .templateNotFound _ searched => .templateNotFound name searched
  | .invalidTemplateName _ => .invalidTemplateName name
  | e => e

namespace Resolver

variable {r : Resolver} {t : FileTree} {a b : Chars}

theorem locate_alike (ha : Path.isAbsolute a = false) (hb : Path.isAbsolute b = false)
    (hblank : a.all Text.isBlank = false) (hblank' : b.all Text.isBlank = false)
    (hmeant : Path.meant a = Path.meant b) : r.locate t b = (r.locate t a).mapError (Error.about b) := by
  have hnormalize := TemplateName.normalize_alike ha hb hblank hblank' hmeant r.translator.extension
  rw [locate, locate, hnormalize]
  cases hname : TemplateName.normalize r.translator.extension a with
  | error e =>
    obtain ⟨-, rfl⟩ := TemplateName.normalize_eq_error_iff.1 hname
    rfl
  | ok normalized =>
    simp only [Except.mapError]
    cases (r.places normalized).find? _ <;> rfl

/-- Names that are written alike up to segments that mean nothing lead to one file, or nowhere alike. -/
theorem resolve_alike (ha : Path.isAbsolute a = false) (hb : Path.isAbsolute b = false)
    (hblank : a.all Text.isBlank = false) (hblank' : b.all Text.isBlank = false)
    (hmeant : Path.meant a = Path.meant b) (cache : Cache) :
    r.resolve t cache b = match r.resolve t cache a with
      | (.ok template, cache') => (.ok { template with requested := b }, cache')
      | (.error e, cache') => (.error (e.about b), cache') := by
  have halike : r.locate t b = (r.locate t a).mapError (Error.about b) := locate_alike ha hb hblank hblank' hmeant
  cases hlocate : r.locate t a with
  | error e =>
    rw [hlocate] at halike
    rw [resolve, resolve, halike, hlocate]
    rfl
  | ok place =>
    obtain ⟨found, path⟩ := place
    rw [hlocate] at halike
    obtain ⟨f, hf, hresolve⟩ := resolve_of_locate cache hlocate
    obtain ⟨g, hg, hresolve'⟩ := resolve_of_locate cache halike
    obtain rfl : f = g := Except.ok.inj (hf.symm.trans hg)
    rw [hresolve, hresolve']
    cases f.text <;> rfl

/-- What was found is found again: under the name it was found as there is the same file with the same source, read
in the same way, whether the cache is what it was or what it is now. And names that are not blank and do not start at
the root are one name if they differ only in segments that mean nothing: both are answered with the same template and
leave the same cache, or both fail for the same reason. -/
theorem resolve_stable (r : Resolver) (t : FileTree) (cache : Cache) (hne : r.translator.extension ≠ [])
    (hslash : '/' ∉ r.translator.extension) (hback : '\\' ∉ r.translator.extension) :
    (∀ name template, (r.resolve t cache name).1 = .ok template →
      (r.resolve t cache template.name).1 = .ok { template with requested := template.name } ∧
      (r.resolve t (r.resolve t cache name).2 template.name).1 =
        .ok { template with requested := template.name }) ∧
    ∀ a b, Path.isAbsolute a = false → Path.isAbsolute b = false →
      a.all Text.isBlank = false → b.all Text.isBlank = false → Path.meant a = Path.meant b →
      r.resolve t cache b = match r.resolve t cache a with
        | (.ok template, cache') => (.ok { template with requested := b }, cache')
        | (.error e, cache') => (.error (e.about b), cache') :=
  ⟨fun _ _ h => resolve_of_resolve hne hslash hback h,
    fun _ _ ha hb hblank hblank' hmeant => resolve_alike ha hb hblank hblank' hmeant cache⟩

/-- A name without an extension that leads to a native file by a shorter path, and the same name with idle segments. -/
theorem resolve_stable_shorter :
    let r : Resolver := ⟨⟨[], "/view".toList⟩, ⟨.twig, "html".toList⟩⟩
    let t := (FileTree.empty []).addFile ["view".toList, "row.html.twig".toList] ⟨some "x".toList, 3⟩
    let found : ResolvedTemplate :=
      ⟨"block/row".toList, "row.html.twig".toList, "/view/row.html.twig".toList, "x".toList, false, 3⟩
    (r.resolve t {} "block/row".toList).1 = .ok found ∧
    (r.resolve t {} found.name).1 = .ok { found with requested := found.name } ∧
    (r.resolve t {} "./block//./row/".toList).1 = .ok { found with requested := "./block//./row/".toList } := by
  intro r t found
  have hfound : r.resolve t {} "block/row".toList = (.ok found, {}) := by decide +kernel
  obtain ⟨hagain, halike⟩ := resolve_stable r t {} (by decide) (by decide) (by decide)
  refine ⟨congrArg Prod.fst hfound, (hagain _ found (congrArg Prod.fst hfound)).1, ?_⟩
  rw [halike "block/row".toList "./block//./row/".toList (by decide) (by decide) (by decide) (by decide) (by decide),
    hfound]

end Resolver
end ViewBridge
