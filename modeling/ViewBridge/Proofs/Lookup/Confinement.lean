import Mathlib.Data.List.Basic
import ViewBridge.Lookup.Resolver
/-!
# Templates stay in the view directories

A name that is looked up is made of plain segments, and so is every shorter path and every counterpart that
is tried for it. Walking plain segments from a directory only goes down, so a template that is found stands
below one of the directories of the search path. A name that could lead elsewhere is refused before any
directory is looked at.

Results:
* `walk_of_plain`: plain segments are walked downwards.
* `locate_join`: a file found under a plain name in a directory is below that directory.
* `normalize_eq_error_iff`, `descends_of_normalize`: the names that are refused, and the form of the others.
* `lookup_confined`: whatever is resolved, loaded, keyed or checked is a file of a view directory.
-/
namespace ViewBridge

namespace Path

/-! ## Plain segments -/

/-- A segment that leads one step down: not empty, not a dot and not two. -/
def IsPlain (segment : Chars) : Prop := segment ≠ [] ∧ segment ≠ ['.'] ∧ segment ≠ ['.', '.']

/-- A path all of whose segments are plain. -/
def Descends (p : Chars) : Prop := ∀ segment ∈ segments p, IsPlain segment

theorem step?_eq_name_iff {segment s : Chars} : step? segment = some (.name s) ↔ s = segment ∧ IsPlain segment := by
  unfold step? IsPlain
  split
  · rename_i h
    rcases h with h | h <;> simp [h]
  · rename_i h
    rw [not_or] at h
    split
    · rename_i hup; simp [hup]
    · rename_i hup; simp [h, hup, eq_comm]

theorem step?_eq_up_iff {segment : Chars} : step? segment = some .up ↔ segment = ['.', '.'] := by
  unfold step?
  split
  · rename_i h
    rcases h with h | h <;> simp [h]
  · split <;> simp_all

theorem name_mem_steps {p s : Chars} : Step.name s ∈ steps p ↔ s ∈ segments p ∧ IsPlain s := by
  have hlead : Step.name s ∉ (if isAbsolute p then [.root] else if startsHere p then [.here] else [] : List Step) := by
    split
    · simp
    · split <;> simp
  rw [steps, List.mem_append, or_iff_right hlead, List.mem_filterMap]
  constructor
  · rintro ⟨segment, hmem, hstep⟩
    obtain ⟨rfl, hplain⟩ := step?_eq_name_iff.1 hstep
    exact ⟨hmem, hplain⟩
  · rintro ⟨hmem, hplain⟩
    exact ⟨s, hmem, step?_eq_name_iff.2 ⟨rfl, hplain⟩⟩

theorem up_mem_steps {p : Chars} : Step.up ∈ steps p ↔ ['.', '.'] ∈ segments p := by
  have hlead : Step.up ∉ (if isAbsolute p then [.root] else if startsHere p then [.here] else [] : List Step) := by
    split
    · simp
    · split <;> simp
  rw [steps, List.mem_append, or_iff_right hlead, List.mem_filterMap]
  constructor
  · rintro ⟨segment, hmem, hstep⟩
    exact step?_eq_up_iff.1 hstep ▸ hmem
  · exact fun hmem => ⟨_, hmem, step?_eq_up_iff.2 rfl⟩

theorem root_mem_steps {p : Chars} : Step.root ∈ steps p ↔ isAbsolute p = true := by
  have htail : Step.root ∉ (segments p).filterMap step? := by
    rw [List.mem_filterMap]
    rintro ⟨segment, -, hstep⟩
    unfold step? at hstep
    split at hstep
    · cases hstep
    · split at hstep <;> cases hstep
  rw [steps, List.mem_append, or_iff_left htail]
  split
  · rename_i h; simp [h]
  · rename_i h; split <;> simp [h]

/-- The segments of two paths with a slash between them. -/
theorem segments_append (p q : Chars) : segments (p ++ '/' :: q) = segments p ++ segments q := by
  induction p with
  | nil => simp [segments]
  | cons c cs ih =>
    rw [List.cons_append, segments, segments, ih]
    split
    · rfl
    · obtain ⟨s, ss, hs⟩ := List.exists_cons_of_ne_nil (segments_ne_nil cs)
      simp [hs]

/-- What is written behind a path without a slash goes to its last segment. -/
theorem exists_segments_append (p : Chars) :
    ∃ init last, ∀ t, '/' ∉ t → segments (p ++ t) = init ++ [last ++ t] := by
  induction p with
  | nil => exact ⟨[], [], fun t ht => segments_of_no_slash ht⟩
  | cons c cs ih =>
    obtain ⟨init, last, h⟩ := ih
    by_cases hc : c = '/'
    · exact ⟨[] :: init, last, fun t ht => by simp [segments, hc, h t ht]⟩
    · cases init with
      | nil => exact ⟨[], c :: last, fun t ht => by simp [segments, hc, h t ht]⟩
      | cons s ss => exact ⟨(c :: s) :: ss, last, fun t ht => by simp [segments, hc, h t ht]⟩

theorem descends_join {ps : List Chars} (hne : ps ≠ []) (h : ∀ p ∈ ps, '/' ∉ p ∧ IsPlain p) :
    Descends (Text.join ['/'] ps) := by
  intro segment hmem
  rw [segments_join hne fun p hp => (h p hp).1] at hmem
  exact (h segment hmem).2

/-- An absolute path starts with an empty segment. -/
theorem segments_of_isAbsolute {p : Chars} (h : isAbsolute p = true) : ∃ q, segments p = [] :: segments q := by
  cases p with
  | nil => simp [isAbsolute] at h
  | cons c cs =>
    have hc : c = '/' := by simpa [isAbsolute] using h
    exact ⟨cs, by simp [segments, hc]⟩

theorem Descends.isAbsolute {p : Chars} (h : Descends p) : isAbsolute p = false := by
  by_contra habsolute
  obtain ⟨q, hq⟩ := segments_of_isAbsolute (by simpa using habsolute)
  exact (h [] (by simp [hq])).1 rfl

theorem Descends.ne_nil {p : Chars} (h : Descends p) : p ≠ [] := by
  rintro rfl
  exact (h [] (by simp [segments])).1 rfl

/-- A plain segment stays plain with more than one character behind it. -/
theorem IsPlain.append {s suffix : Chars} (h : IsPlain s) (hs : 2 ≤ suffix.length) : IsPlain (s ++ suffix) := by
  have hpos := List.length_pos_iff.2 h.1
  have hne {w : Chars} (hw : w.length ≤ 2) : s ++ suffix ≠ w := fun heq => by
    have := congrArg List.length heq
    rw [List.length_append] at this
    omega
  exact ⟨hne (by simp), hne (by simp), hne (by simp)⟩

theorem Descends.append {p suffix : Chars} (h : Descends p) (hslash : '/' ∉ suffix)
    (hs : 2 ≤ suffix.length) : Descends (p ++ suffix) := by
  obtain ⟨init, last, hsegments⟩ := exists_segments_append p
  have hp := hsegments [] (by simp)
  rw [List.append_nil, List.append_nil] at hp
  rw [Descends, hp] at h
  intro segment hmem
  rw [hsegments suffix hslash, List.mem_append, List.mem_singleton] at hmem
  rcases hmem with hmem | rfl
  · exact h segment (List.mem_append_left _ hmem)
  · exact (h last (by simp)).append hs

end Path

/-! ## Walking down -/

namespace FileTree

variable {t : FileTree}

/-- Two parts of a path are walked one after the other, if the first one leads to a directory. -/
theorem walk_append (loc : Location) (xs ys : List Chars) (hne : ys ≠ []) :
    t.walk loc (xs ++ ys) = match t.walk loc xs with
      | .ok (mid, .directory) => t.walk mid ys
      | .ok (_, .file _) => .error .notDirectory
      | .error e => .error e := by
  induction xs generalizing loc with
  | nil => rfl
  | cons x xs ih =>
    rw [List.cons_append, walk, walk]
    split
    · exact ih loc
    split
    · exact ih _
    split
    · rfl
    split
    · rfl
    · exact ih _
    · have hrest : xs ++ ys ≠ [] := by simp [hne]
      rw [if_neg hrest]
      by_cases hxs : xs = [] <;> simp [hxs]

/-- The last segment of the way to a file is plain. -/
theorem isPlain_of_walk {loc loc' : Location} {xs : List Chars} {x : Chars} {f : File}
    (h : t.walk loc (xs ++ [x]) = .ok (loc', .file f)) : Path.IsPlain x := by
  rw [walk_append loc xs [x] (by simp)] at h
  split at h
  · rename_i mid hmid
    rw [walk] at h
    split at h
    · simp [walk] at h
    · rename_i hidle
      rw [not_or] at hidle
      split at h
      · simp [walk] at h
      · rename_i hup
        exact ⟨hidle.1, hidle.2, hup⟩
  · cases h
  · cases h

/-- Plain segments are walked downwards. -/
theorem walk_of_plain {loc loc' : Location} {xs : List Chars} {e : Entry} (hxs : ∀ x ∈ xs, Path.IsPlain x)
    (h : t.walk loc xs = .ok (loc', e)) : loc' = loc ++ xs := by
  induction xs generalizing loc with
  | nil =>
    rw [walk] at h
    simp only [Except.ok.injEq, Prod.mk.injEq] at h
    rw [← h.1, List.append_nil]
  | cons x xs ih =>
    obtain ⟨hne, hdot, hup⟩ := hxs x List.mem_cons_self
    rw [walk, if_neg (by simp [hne, hdot]), if_neg hup] at h
    split at h
    · cases h
    split at h
    · cases h
    · rw [ih (fun y hy => hxs y (List.mem_cons_of_mem x hy)) h]
      simp
    · rename_i hfile
      split at h
      · rename_i hrest
        simp only [Except.ok.injEq, Prod.mk.injEq] at h
        rw [← h.1, hrest]
      · cases h

theorem isFile_eq_true {path : Chars} (h : t.isFile path = true) :
    ∃ loc f, t.locate path = .ok (loc, .file f) ∧ t.file path = .ok f := by
  unfold isFile at h
  split at h
  · rename_i loc f hl
    exact ⟨loc, f, hl, by rw [file, hl]⟩
  · cases h

theorem startOf_append {dir : Chars} (hne : dir ≠ []) (p : Chars) : t.startOf (dir ++ p) = t.startOf dir := by
  obtain ⟨c, cs, rfl⟩ := List.exists_cons_of_ne_nil hne
  rfl

/-- A walk that goes on down to a file comes through a directory. -/
theorem directory_of_walk {loc loc' : Location} {xs ys : List Chars} {f : File} (hne : ys ≠ [])
    (hys : ∀ y ∈ ys, Path.IsPlain y) (h : t.walk loc (xs ++ ys) = .ok (loc', .file f)) :
    ∃ base, t.walk loc xs = .ok (base, .directory) ∧ loc' = base ++ ys := by
  rw [walk_append loc xs ys hne] at h
  split at h
  · rename_i base hbase
    exact ⟨base, hbase, walk_of_plain hys h⟩
  · cases h
  · cases h

/-- A relative path below a directory is walked behind the directory. -/
theorem locate_join_eq (t : FileTree) (dir : Chars) {p : Chars} (hp : Path.isAbsolute p = false)
    (hne : p ≠ []) :
    ∃ xs, (Path.segments dir = xs ∨ Path.segments dir = xs ++ [[]]) ∧
      t.locate (Path.join dir p) = t.walk (t.startOf dir) (xs ++ Path.segments p) := by
  by_cases hdir : dir = []
  · -- without a directory the path starts where the program stands
    subst hdir
    have hjoin : Path.join [] p = p := by simp [Path.join]
    refine ⟨[], .inr rfl, ?_⟩
    rw [hjoin, locate, if_neg hne, startOf, hp]
    rfl
  by_cases hslash : dir.getLast? = some '/'
  · obtain ⟨d, rfl⟩ := List.getLast?_eq_some_iff.1 hslash
    have hjoin : Path.join (d ++ ['/']) p = d ++ '/' :: p := by simp [Path.join, hp]
    refine ⟨Path.segments d, .inr (Path.segments_append d []), ?_⟩
    rw [hjoin, locate, if_neg (by simp), Path.segments_append, ← startOf_append hdir p]
    simp
  · have hjoin : Path.join dir p = dir ++ '/' :: p := by simp [Path.join, hp, hdir, hslash]
    refine ⟨Path.segments dir, .inl rfl, ?_⟩
    rw [hjoin, locate, if_neg (by simp), Path.segments_append, startOf_append hdir]

/-- A file found under a plain name in a directory is below that directory. -/
theorem locate_join {dir p : Chars} (hp : Path.Descends p) {loc : Location} {f : File}
    (h : t.locate (Path.join dir p) = .ok (loc, .file f)) :
    ∃ base, t.walk (t.startOf dir) (Path.segments dir) = .ok (base, .directory) ∧
      loc = base ++ Path.segments p := by
  obtain ⟨xs, hxs, hlocate⟩ := locate_join_eq t dir hp.isAbsolute hp.ne_nil
  rw [hlocate] at h
  obtain ⟨base, hbase, hloc⟩ := directory_of_walk (Path.segments_ne_nil p) hp h
  refine ⟨base, ?_, hloc⟩
  rcases hxs with hxs | hxs <;> rw [hxs]
  · exact hbase
  · rw [walk_append _ _ _ (by simp), hbase]
    rfl

end FileTree

/-! ## Names -/

namespace TemplateName

/-- A name that no template can have. -/
inductive Unusable (name : Chars) : Prop where
  | blank (h : ∀ c ∈ name, Text.isBlank c = true)
  | backslash (h : '\\' ∈ name)
  | absolute (h : Path.isAbsolute name = true)
  | upward (h : ['.', '.'] ∈ Path.segments name)
  | idle (h : ∀ segment ∈ Path.segments name, ¬ Path.IsPlain segment)

theorem plainSegments_eq {steps : List Path.Step} (hroot : .root ∉ steps) (hup : .up ∉ steps) :
    plainSegments steps = some (steps.filterMap fun | .name s => some s | _ => none) := by
  induction steps with
  | nil => rfl
  | cons step steps ih =>
    simp only [List.mem_cons, not_or] at hroot hup
    cases step with
    | root => exact absurd rfl hroot.1
    | here => simpa [plainSegments] using ih hroot.2 hup.2
    | up => exact absurd rfl hup.1
    | name s => simp [plainSegments, ih hroot.2 hup.2]

theorem plainSegments_eq_none {steps : List Path.Step} (h : .root ∈ steps ∨ .up ∈ steps) :
    plainSegments steps = none := by
  induction steps with
  | nil => simp at h
  | cons step steps ih =>
    cases step with
    | root => rfl
    | up => rfl
    | here => exact ih (by simpa using h)
    | name s => rw [plainSegments, ih (by simpa using h)]; rfl

/-- The plain segments of a usable name; there is one. -/
theorem exists_plainSegments {name : Chars} (habsolute : Path.isAbsolute name = false)
    (hup : ['.', '.'] ∉ Path.segments name) :
    ∃ segments, plainSegments (Path.steps name) = some segments ∧
      ∀ s, s ∈ segments ↔ s ∈ Path.segments name ∧ Path.IsPlain s := by
  refine ⟨_, plainSegments_eq (by simp [Path.root_mem_steps, habsolute]) (mt Path.up_mem_steps.1 hup), ?_⟩
  intro s
  rw [← Path.name_mem_steps, List.mem_filterMap]
  constructor
  · rintro ⟨step, hmem, hstep⟩
    cases step <;> simp at hstep
    exact hstep ▸ hmem
  · exact fun hmem => ⟨_, hmem, rfl⟩

theorem normalize_of_unusable {name : Chars} (h : Unusable name) (extension : Chars) :
    normalize extension name = .error (.invalidTemplateName name) := by
  unfold normalize
  split
  · rfl
  · rename_i hguard
    simp only [Bool.or_eq_true, List.all_eq_true, List.contains_iff_mem, not_or] at hguard
    obtain ⟨⟨hblank, hslash⟩, habsolute⟩ := hguard
    cases h with
    | blank h => exact absurd h hblank
    | backslash h => exact absurd h hslash
    | absolute h => exact absurd h habsolute
    | upward h => rw [plainSegments_eq_none (.inr (Path.up_mem_steps.2 h))]
    | idle h =>
      by_cases hup : ['.', '.'] ∈ Path.segments name
      · rw [plainSegments_eq_none (.inr (Path.up_mem_steps.2 hup))]
      · obtain ⟨segments, hplain, hmem⟩ := exists_plainSegments (by simpa using habsolute) hup
        have hnil : segments = [] := List.eq_nil_iff_forall_not_mem.2 fun s hs =>
          h s ((hmem s).1 hs).1 ((hmem s).1 hs).2
        rw [hplain, hnil]
        rfl

/-- The regular form of a name that is not refused. -/
theorem normalize_of_usable {name : Chars} (h : ¬ Unusable name) (extension : Chars) :
    ∃ segments last, segments.getLast? = some last ∧ (∀ s ∈ segments, '/' ∉ s ∧ Path.IsPlain s) ∧
      normalize extension name = .ok (if last.contains '.' then Text.join ['/'] segments
        else Text.join ['/'] segments ++ '.' :: extension) := by
  have hblank : name.all Text.isBlank = false := by
    by_contra hb
    exact h (.blank (by simpa using hb))
  have hslash : name.contains '\\' = false := by
    by_contra hb
    exact h (.backslash (by simpa using hb))
  have habsolute : Path.isAbsolute name = false := by
    by_contra hb
    exact h (.absolute (by simpa using hb))
  obtain ⟨segments, hplain, hmem⟩ := exists_plainSegments habsolute fun hup => h (.upward hup)
  have hne : segments ≠ [] := by
    rintro rfl
    exact h (.idle fun s hs hp => nomatch (hmem s).2 ⟨hs, hp⟩)
  refine ⟨segments, segments.getLast hne, List.getLast?_eq_some_getLast hne, fun s hs => ?_, ?_⟩
  · exact ⟨Path.slash_not_mem_of_mem_segments ((hmem s).1 hs).1, ((hmem s).1 hs).2⟩
  · rw [normalize, hblank, hslash, habsolute, hplain]
    simp only [Bool.or_self, Bool.false_eq_true, if_false, List.getLast?_eq_some_getLast hne]

theorem normalize_eq_error_iff {extension name : Chars} {e : Error} :
    normalize extension name = .error e ↔ Unusable name ∧ e = .invalidTemplateName name := by
  by_cases h : Unusable name
  · rw [normalize_of_unusable h, Except.error.injEq, eq_comm, and_iff_right h]
  · obtain ⟨segments, last, -, -, hn⟩ := normalize_of_usable h extension
    simp [hn, h]

theorem descends_of_normalize {extension name normalized : Chars} (hne : extension ≠ [])
    (hslash : '/' ∉ extension) (h : normalize extension name = .ok normalized) :
    Path.Descends normalized := by
  have husable : ¬ Unusable name := fun hu => by simp [normalize_of_unusable hu] at h
  obtain ⟨segments, last, hlast, hplain, hn⟩ := normalize_of_usable husable extension
  have hsegments : segments ≠ [] := by
    rintro rfl
    simp at hlast
  have hjoined := Path.descends_join hsegments hplain
  rw [hn, Except.ok.injEq] at h
  subst h
  split
  · exact hjoined
  · refine hjoined.append ?_ ?_
    · simpa using hslash
    · have := List.length_pos_iff.2 hne
      simp only [List.length_cons]
      omega

/-! ## What is tried for a name -/

theorem mem_dedupe {x : Chars} {xs : List Chars} : x ∈ dedupe xs ↔ x ∈ xs := by
  have hfold (seen : List Chars) :
      x ∈ xs.foldl (fun seen x => if seen.contains x then seen else seen ++ [x]) seen ↔ x ∈ seen ∨ x ∈ xs := by
    induction xs generalizing seen with
    | nil => simp
    | cons y ys ih =>
      rw [List.foldl_cons, ih]
      split
      · rename_i hy
        rw [List.contains_iff_mem] at hy
        grind
      · grind
  rw [dedupe, hfold]
  simp

theorem descends_of_mem_variants {name variant : Chars} (h : Path.Descends name)
    (hv : variant ∈ variants name) : Path.Descends variant := by
  unfold variants at hv
  simp only at hv
  split at hv
  · rw [List.mem_singleton.1 hv]
    exact h
  · rename_i hlength
    rw [mem_dedupe, List.mem_cons, List.mem_map] at hv
    rcases hv with rfl | ⟨k, hk, rfl⟩
    · exact h
    · have hlt : k < (Path.segments name).length := by
        simp only [List.mem_cons, List.not_mem_nil, or_false] at hk
        omega
      refine Path.descends_join (by simpa using hlt) fun p hp => ?_
      have hmem := List.mem_of_mem_drop hp
      exact ⟨Path.slash_not_mem_of_mem_segments hmem, h p hmem⟩

/-- A candidate of a plain name is a plain name too, unless its last segment leads up. -/
theorem descends_of_mem_candidates {extension name candidate : Chars} (hne : extension ≠ [])
    (hslash : '/' ∉ extension) (h : Path.Descends name) (hc : candidate ∈ candidates extension name) :
    Path.Descends candidate ∨ ∃ init, (∀ segment ∈ init, Path.IsPlain segment) ∧
      Path.segments candidate = init ++ [['.', '.']] := by
  have hpos := List.length_pos_iff.2 hne
  have hlegacy : '/' ∉ '.' :: extension := by simpa using hslash
  have hnative : '/' ∉ '.' :: extension ++ ".twig".toList := by
    rw [List.mem_append, not_or]
    exact ⟨hlegacy, by decide⟩
  unfold candidates at hc
  simp only at hc
  split at hc
  · rename_i stem hstem
    rw [Text.before?_eq_some_iff] at hstem
    rw [List.mem_cons, List.mem_singleton] at hc
    rcases hc with rfl | rfl
    · exact .inl h
    · obtain ⟨init, last, hsegments⟩ := Path.exists_segments_append stem
      rw [Path.Descends, hstem, hsegments _ hnative] at h
      have hinit : ∀ segment ∈ init, Path.IsPlain segment := fun s hs => h s (List.mem_append_left _ hs)
      by_cases hup : last ++ '.' :: extension = ['.', '.']
      · exact .inr ⟨init, hinit, by rw [hsegments _ hlegacy, hup]⟩
      · refine .inl fun segment hmem => ?_
        rw [hsegments _ hlegacy, List.mem_append, List.mem_singleton] at hmem
        rcases hmem with hmem | rfl
        · exact hinit segment hmem
        · refine ⟨by simp, fun hdot => ?_, hup⟩
          have := congrArg List.length hdot
          simp only [List.length_append, List.length_cons, List.length_nil] at this
          omega
  · split at hc
    · rw [List.mem_cons, List.mem_singleton] at hc
      rcases hc with rfl | rfl
      · exact .inl h
      · exact .inl (h.append (by decide) (by decide))
    · rw [List.mem_singleton.1 hc]
      exact .inl h

end TemplateName

/-! ## The resolver -/

namespace Resolver

variable {r : Resolver} {t : FileTree}

/-- A file of a view directory: its path is that of a plain relative name in a directory of the search path,
and it stands below that directory. -/
def Confined (r : Resolver) (t : FileTree) (name path : Chars) : Prop :=
  ∃ dir ∈ r.searchPath.dirs, path = Path.join dir name ∧
    Path.isAbsolute name = false ∧ (∀ segment ∈ Path.segments name, Path.IsPlain segment) ∧
    ∃ base f, t.walk (t.startOf dir) (Path.segments dir) = .ok (base, .directory) ∧
      t.locate path = .ok (base ++ Path.segments name, .file f)

/-- A candidate that is a file in some directory is a plain name: its last segment does not lead up. -/
theorem descends_of_isFile {extension name candidate dir : Chars} (hne : extension ≠ [])
    (hslash : '/' ∉ extension) (h : Path.Descends name)
    (hc : candidate ∈ TemplateName.candidates extension name)
    (hfile : t.isFile (Path.join dir candidate) = true) : Path.Descends candidate := by
  rcases TemplateName.descends_of_mem_candidates hne hslash h hc with hplain | ⟨init, hinit, hsegments⟩
  · exact hplain
  · have hrelative : Path.isAbsolute candidate = false := by
      by_contra habsolute
      obtain ⟨q, hq⟩ := Path.segments_of_isAbsolute (by simpa using habsolute)
      rw [hq] at hsegments
      cases init with
      | nil => simp at hsegments
      | cons s ss => exact (hinit s (by simp)).1 (List.cons.inj hsegments).1.symm
    have hnonempty : candidate ≠ [] := by
      rintro rfl
      cases init <;> simp [Path.segments] at hsegments
    obtain ⟨xs, -, hlocate⟩ := FileTree.locate_join_eq t dir hrelative hnonempty
    obtain ⟨loc, f, hl, -⟩ := FileTree.isFile_eq_true hfile
    rw [hlocate, hsegments, ← List.append_assoc] at hl
    exact absurd rfl (FileTree.isPlain_of_walk hl).2.2

theorem confined_of_locate (hne : r.translator.extension ≠ []) (hslash : '/' ∉ r.translator.extension)
    {name found path : Chars} (h : r.locate t name = .ok (found, path)) : r.Confined t found path := by
  obtain ⟨hfile, normalized, hn, hplace⟩ := locate_eq_ok h
  simp only [places, List.mem_flatMap, List.mem_map, Prod.mk.injEq] at hplace
  obtain ⟨variant, hvariant, candidate, hcandidate, dir, hdir, rfl, rfl⟩ := hplace
  have hplain := descends_of_isFile hne hslash
    (TemplateName.descends_of_mem_variants (TemplateName.descends_of_normalize hne hslash hn) hvariant)
    hcandidate hfile
  obtain ⟨loc, f, hl, -⟩ := FileTree.isFile_eq_true hfile
  obtain ⟨base, hbase, rfl⟩ := FileTree.locate_join hplain hl
  exact ⟨dir, hdir, rfl, hplain.isAbsolute, hplain, base, f, hbase, hl⟩

theorem locate_of_unusable (r : Resolver) (t : FileTree) {name : Chars} (h : TemplateName.Unusable name) :
    r.locate t name = .error (.invalidTemplateName name) := by
  rw [locate, TemplateName.normalize_of_unusable h]

theorem locate_of_resolve {cache : Cache} {name : Chars} {template : ResolvedTemplate}
    (h : (r.resolve t cache name).1 = .ok template) : r.locate t name = .ok (template.name, template.path) := by
  unfold resolve at h
  split at h
  · cases h
  · rename_i found path hl
    split at h
    · simp only [Except.ok.injEq] at h
      rw [hl, ← h]
    · cases h
    · cases h

theorem resolve_of_load {cache : Cache} {name text : Chars} (h : (r.load t cache name).1 = .ok (some text)) :
    ∃ template, (r.resolve t cache name).1 = .ok template ∧ template.source = text := by
  unfold load at h
  split at h
  · rename_i template cache' hr
    simp only [Except.ok.injEq, Option.some.injEq] at h
    exact ⟨template, by rw [hr], h⟩
  · simp at h
  · cases h

theorem file_of_isFresh {name : Chars} {since : Int} {fresh : Bool} (h : r.isFresh t name since = .ok fresh) :
    ∃ found path f, r.locate t name = .ok (found, path) ∧ t.file path = .ok f ∧
      fresh = decide (f.modified ≤ since) := by
  unfold isFresh at h
  split at h
  · cases h
  · rename_i found path hl
    split at h
    · rename_i f hf
      exact ⟨found, path, f, hl, hf, (Except.ok.inj h).symm⟩
    · cases h

/-- Whatever is resolved, loaded, keyed, checked or found to exist is a file below a directory of the search
path, reached by a plain relative name; a name that could lead elsewhere is refused, whatever there is on the
search path. -/
theorem lookup_confined (r : Resolver) (t : FileTree) (cache : Cache) (name : Chars)
    (hne : r.translator.extension ≠ []) (hslash : '/' ∉ r.translator.extension) :
    (∀ template, (r.resolve t cache name).1 = .ok template → r.Confined t template.name template.path) ∧
    (∀ text, (r.load t cache name).1 = .ok (some text) →
      ∃ template, (r.resolve t cache name).1 = .ok template ∧ template.source = text ∧
        r.Confined t template.name template.path) ∧
    (∀ key, r.cacheKey t name = .ok key →
      ∃ found path, r.Confined t found path ∧
        key = if r.isLegacy found then "legacy:".toList ++ path else path) ∧
    (∀ since fresh, r.isFresh t name since = .ok fresh →
      ∃ found path f, r.Confined t found path ∧ t.file path = .ok f ∧ fresh = decide (f.modified ≤ since)) ∧
    (r.exists? t name = true → ∃ found path, r.Confined t found path ∧ r.locate t name = .ok (found, path)) ∧
    (TemplateName.Unusable name →
      r.resolve t cache name = (.error (.invalidTemplateName name), cache) ∧
      r.load t cache name = (.error (.invalidTemplateName name), cache) ∧
      r.cacheKey t name = .error (.invalidTemplateName name) ∧
      (∀ since, r.isFresh t name since = .error (.invalidTemplateName name)) ∧
      r.exists? t name = false) := by
  have hconfined {found path : Chars} (h : r.locate t name = .ok (found, path)) : r.Confined t found path :=
    confined_of_locate hne hslash h
  refine ⟨fun template h => hconfined (locate_of_resolve h), fun text h => ?_, fun key h => ?_,
    fun since fresh h => ?_, fun h => ?_, fun h => ?_⟩
  · obtain ⟨template, hr, hsource⟩ := resolve_of_load h
    exact ⟨template, hr, hsource, hconfined (locate_of_resolve hr)⟩
  · cases hl : r.locate t name with
    | error e => simp [cacheKey, hl, Except.map] at h
    | ok place =>
      obtain ⟨found, path⟩ := place
      rw [cacheKey_of_locate hl, Except.ok.injEq] at h
      exact ⟨found, path, hconfined hl, h.symm⟩
  · obtain ⟨found, path, f, hl, hf, hfresh⟩ := file_of_isFresh h
    exact ⟨found, path, f, hconfined hl, hf, hfresh⟩
  · cases hl : r.locate t name with
    | error e => simp [exists?, hl] at h
    | ok place => exact ⟨place.1, place.2, hconfined hl, rfl⟩
  · have hl := r.locate_of_unusable t h
    have hresolve : r.resolve t cache name = (.error (.invalidTemplateName name), cache) := by rw [resolve, hl]
    refine ⟨hresolve, by rw [load, hresolve], by rw [cacheKey, hl]; rfl, fun since => by rw [isFresh, hl], ?_⟩
    rw [exists?, hl]

/-- A name with idle segments and without an extension is found below the only directory, and one that goes
up again is refused although the file it would lead to is there. -/
theorem lookup_confined_row :
    let r : Resolver := ⟨⟨[], "/view".toList⟩, ⟨.twig, "html".toList⟩⟩
    let t := (FileTree.empty []).addFile ["view".toList, "block".toList, "row.html".toList] ⟨some [], 0⟩
    r.translator.extension ≠ [] ∧ '/' ∉ r.translator.extension ∧
      r.exists? t "./block//row".toList = true ∧
      (∃ found path, r.Confined t found path ∧ r.locate t "./block//row".toList = .ok (found, path)) ∧
      t.isFile "/view/block/../block/row.html".toList = true ∧
      r.exists? t "block/../block/row.html".toList = false := by
  intro r t
  have hfound : r.exists? t "./block//row".toList = true := by decide +kernel
  have hne : r.translator.extension ≠ [] := by decide
  have hslash : '/' ∉ r.translator.extension := by decide
  exact ⟨hne, hslash, hfound, (lookup_confined r t {} _ hne hslash).2.2.2.2.1 hfound, by decide +kernel,
    ((lookup_confined r t {} "block/../block/row.html".toList hne hslash).2.2.2.2.2 (.upward (by decide))).2.2.2.2⟩

end Resolver
end ViewBridge
