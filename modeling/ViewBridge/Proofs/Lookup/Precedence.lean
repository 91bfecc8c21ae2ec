import ViewBridge.Proofs.Lookup.Alias
/-!
# The order of the search path

The theme comes first, then the view directories of the plugins, the last declared plugin first, and the core
directory last. A directory that several of them name counts where it is named first, however it is spelled. So what
a plugin has is found before what only plugins declared before it have, and before what only the core has.

Results:
* `Path.firsts_append`: what a list of paths adds to the paths in front of it.
* `FileTree.isFile_join_of_steps`: a directory has the same files however it is spelled.
* `SearchPath.foldl_addDirectory`: directories that are added one by one are those that exist, without repetitions.
* `SearchPath.build_precedence`: the directories of a project, their order, and what is found first.
-/
namespace ViewBridge

/-! ## Repetitions -/

namespace Path

/-- Whether a path is one of others, by its steps. -/
def IsAmong (p : Chars) (ps : List Chars) : Prop := steps p ∈ ps.map steps

instance (p : Chars) (ps : List Chars) : Decidable (IsAmong p ps) := inferInstanceAs (Decidable (_ ∈ _))

/-- The paths of a list without those that it has before, by their steps. -/
def firsts : List Chars → List Chars
  | [] => []
  | p :: ps => p :: (firsts ps).filter fun q => steps q ≠ steps p

variable {p : Chars} {ps qs : List Chars}

theorem isAmong_of_mem (h : p ∈ ps) : IsAmong p ps := List.mem_map_of_mem h

theorem isAmong_cons {q : Chars} : IsAmong p (q :: ps) ↔ steps p = steps q ∨ IsAmong p ps := by
  rw [IsAmong, List.map_cons, List.mem_cons]
  rfl

theorem mem_of_mem_firsts (h : p ∈ firsts ps) : p ∈ ps := by
  induction ps with
  | nil => exact h
  | cons q ps ih =>
    rcases List.mem_cons.1 h with rfl | h
    · exact List.mem_cons_self
    · exact List.mem_cons_of_mem q (ih (List.mem_filter.1 h).1)

/-- Every path has a first one with its steps. -/
theorem exists_mem_firsts (h : IsAmong p ps) : ∃ q ∈ firsts ps, steps q = steps p := by
  induction ps with
  | nil => cases h
  | cons q ps ih =>
    by_cases hq : steps q = steps p
    · exact ⟨q, List.mem_cons_self, hq⟩
    · obtain ⟨q', hmem, hsteps⟩ := ih ((isAmong_cons.1 h).resolve_left fun h => hq h.symm)
      refine ⟨q', List.mem_cons_of_mem q (List.mem_filter.2 ⟨hmem, decide_eq_true ?_⟩), hsteps⟩
      rw [hsteps]
      exact fun h => hq h.symm

theorem isAmong_firsts : IsAmong p (firsts ps) ↔ IsAmong p ps := by
  constructor
  · intro h
    obtain ⟨q, hq, hsteps⟩ := List.mem_map.1 h
    rw [IsAmong, ← hsteps]
    exact isAmong_of_mem (mem_of_mem_firsts hq)
  · intro h
    obtain ⟨q, hq, hsteps⟩ := exists_mem_firsts h
    rw [IsAmong, ← hsteps]
    exact isAmong_of_mem hq

theorem pairwise_firsts (ps : List Chars) : (firsts ps).Pairwise fun p q => steps p ≠ steps q := by
  induction ps with
  | nil => exact .nil
  | cons p ps ih =>
    refine List.pairwise_cons.2 ⟨fun q hq => ?_, ih.filter _⟩
    exact fun h => of_decide_eq_true (List.mem_filter.1 hq).2 h.symm

/-- What a list adds to the paths in front of it is what it has first and they have not. -/
theorem firsts_append (ps qs : List Chars) :
    firsts (ps ++ qs) = firsts ps ++ (firsts qs).filter fun q => ¬ IsAmong q ps := by
  induction ps with
  | nil =>
    have hall : (firsts qs).filter (fun q => ¬ IsAmong q []) = firsts qs :=
      List.filter_eq_self.2 fun q _ => decide_eq_true List.not_mem_nil
    rw [hall]
    rfl
  | cons p ps ih =>
    rw [List.cons_append, firsts, firsts, ih, List.filter_append, List.filter_filter, List.cons_append]
    congr 2
    refine List.filter_congr fun q _ => ?_
    simp only [isAmong_cons, not_or, Bool.decide_and]

end Path

/-! ## Files below a directory -/

namespace FileTree

variable {t : FileTree} {dir dir' name : Chars}

/-- The way of a relative name below a directory starts there. -/
theorem locate_join_of_directory {base : Location} (h : t.locate dir = .ok (base, .directory))
    (hname : Path.isAbsolute name = false) (hne : name ≠ []) :
    t.locate (Path.join dir name) = t.walk base (Path.segments name) := by
  obtain ⟨xs, hxs, hlocate⟩ := locate_join_eq t dir hname hne
  have hwalk : t.walk (t.startOf dir) (Path.segments dir) = .ok (base, .directory) := by
    rw [locate] at h
    split at h
    · cases h
    · exact h
  have hbase : t.walk (t.startOf dir) xs = .ok (base, .directory) := by
    rcases hxs with hxs | hxs
    · exact hxs ▸ hwalk
    · rw [hxs, walk_append _ _ _ (by simp)] at hwalk
      split at hwalk
      · rename_i mid hmid
        rw [hmid]
        exact hwalk
      · cases hwalk
      · cases hwalk
  rw [hlocate, walk_append _ _ _ (Path.segments_ne_nil name), hbase]

theorem exists_of_isDirectory (h : t.isDirectory dir = true) : ∃ base, t.locate dir = .ok (base, .directory) := by
  unfold isDirectory at h
  split at h
  · rename_i base hbase
    exact ⟨base, hbase⟩
  · cases h

/-- Paths with the same steps lead to the same directory. -/
theorem locate_eq_of_steps {base base' : Location} (hsteps : Path.steps dir = Path.steps dir')
    (h : t.locate dir = .ok (base, .directory)) (h' : t.locate dir' = .ok (base', .directory)) : base = base' := by
  have hwalk {p : Chars} {loc : Location} (h : t.locate p = .ok (loc, .directory)) :
      t.walk (t.startOf p) ((Path.segments p).filter fun s => (Path.step? s).isSome) = .ok (loc, .directory) := by
    rw [locate] at h
    split at h
    · cases h
    · exact walk_filter h
  have hmeant := hwalk h
  rw [← Path.filterMap_segment?_steps, hsteps, Path.filterMap_segment?_steps, startOf_eq_of_steps hsteps,
    hwalk h'] at hmeant
  simp only [Except.ok.injEq, Prod.mk.injEq] at hmeant
  exact hmeant.1.symm

/-- A directory has the same files however it is spelled. -/
theorem isFile_join_of_steps (hdir : t.isDirectory dir = true) (hdir' : t.isDirectory dir' = true)
    (hsteps : Path.steps dir = Path.steps dir') (hname : Path.isAbsolute name = false)
    (h : t.isFile (Path.join dir name) = true) : t.isFile (Path.join dir' name) = true := by
  obtain ⟨base, hbase⟩ := exists_of_isDirectory hdir
  obtain ⟨base', hbase'⟩ := exists_of_isDirectory hdir'
  obtain rfl := locate_eq_of_steps hsteps hbase hbase'
  have hne : name ≠ [] := by
    rintro rfl
    obtain ⟨-, f, -, hf⟩ := isFile_eq_true h
    have hplain := isPlain_of_file hf
    rw [Path.afterLast_join] at hplain
    exact hplain.1 rfl
  rw [isFile, locate_join_of_directory hbase hname hne] at h
  rw [isFile, locate_join_of_directory hbase' hname hne]
  exact h

end FileTree

/-! ## The search path -/

namespace SearchPath

open ViewBridge.Path (IsAmong firsts)

variable {t : FileTree} {v : Views}

/-- The view directories that a plugin may have. -/
def viewDirs (v : Views) (plugin : Chars) : List Chars :=
  v.folders.map fun folder => Path.join (Path.join v.pluginsDir plugin) folder

/-- The directories that a project may have in front of the core directory: the theme and the view directories of
plugins, the last declared plugin first. -/
def candidateDirs (v : Views) (plugins : List Chars) : List Chars :=
  v.themeDir.toList ++ plugins.reverse.flatMap (viewDirs v)

theorem candidateDirs_append (v : Views) (earlier later : List Chars) :
    candidateDirs v (earlier ++ later) = candidateDirs v later ++ earlier.reverse.flatMap (viewDirs v) := by
  rw [candidateDirs, List.reverse_append, List.flatMap_append, ← List.append_assoc]
  rfl

/-- Directories that are added one by one are those that exist, without repetitions. -/
theorem foldl_addDirectory (t : FileTree) (found dirs : List Chars) :
    dirs.foldl (addDirectory t) (firsts found) = firsts (found ++ dirs.filter t.isDirectory) := by
  induction dirs generalizing found with
  | nil => rw [List.foldl_nil, List.filter_nil, List.append_nil]
  | cons dir dirs ih =>
    have hstep : addDirectory t (firsts found) dir = firsts (found ++ [dir].filter t.isDirectory) := by
      have hamong : Path.steps dir ∈ (firsts found).map Path.steps ↔ IsAmong dir found := Path.isAmong_firsts
      simp only [addDirectory, hamong, Path.firsts_append]
      cases hdir : t.isDirectory dir with
      | false => simp [hdir, firsts]
      | true => by_cases hfound : IsAmong dir found <;> simp [hdir, firsts, hfound]
    rw [List.foldl_cons, hstep, ih, List.append_assoc, ← List.filter_append]
    rfl

/-- The directories in front of the core directory. -/
theorem others_build (t : FileTree) (v : Views) :
    (build t v).others = firsts ((candidateDirs v v.plugins).filter t.isDirectory) := by
  have htheme : themeDirs t v = firsts (v.themeDir.toList.filter t.isDirectory) := by
    unfold themeDirs
    cases v.themeDir with
    | none => rfl
    | some theme => cases htheme : t.isDirectory theme <;> simp [htheme, firsts]
  rw [build, htheme, foldl_addDirectory, candidateDirs, List.filter_append]
  rfl

/-- A file in one of the first directories is found in one of them. -/
theorem find?_of_mem {s : SearchPath} {front back : List Chars} {name : Chars} (hdirs : s.dirs = front ++ back)
    {dir : Chars} (hdir : dir ∈ front) (h : t.isFile (Path.join dir name) = true) :
    ∃ dir ∈ front, s.find? t name = some (Path.join dir name) := by
  rw [find?, hdirs, List.map_append, List.find?_append]
  cases hfind : (front.map fun dir => Path.join dir name).find? t.isFile with
  | none => exact absurd h (List.find?_eq_none.1 hfind _ (List.mem_map_of_mem hdir))
  | some path =>
    obtain ⟨dir, hdir, rfl⟩ := List.mem_map.1 (List.mem_of_find?_eq_some hfind)
    exact ⟨dir, hdir, rfl⟩

/-- The search path of a project. Its directories are those of the theme and of the plugins that exist, the last
declared plugin first, each where it is named first, and then the core directory; the theme is first if it exists.
For each plugin and those declared after it:

* a directory of the plugin stands in front of every directory that the theme, the plugin and those do not have, so of
  every one that is there only for plugins declared before;
* a file in a directory of the plugin is found in a directory of the theme, of the plugin or of those, so before any
  file in a directory that is there only for plugins declared before, or only as the core directory. -/
theorem build_precedence (t : FileTree) (v : Views) :
    (build t v).dirs = firsts ((candidateDirs v v.plugins).filter t.isDirectory) ++ [v.coreDir] ∧
    (∀ theme, v.themeDir = some theme → (t.isDirectory theme = true ↔ (build t v).others.head? = some theme)) ∧
    (build t v).others.Pairwise (fun a b => Path.steps a ≠ Path.steps b) ∧
    ∀ earlier plugin later, v.plugins = earlier ++ plugin :: later →
      ∀ dir ∈ viewDirs v plugin, t.isDirectory dir = true →
        (∃ first ∈ (build t v).others, Path.steps first = Path.steps dir ∧
          ∀ other ∈ (build t v).others, ¬ IsAmong other (candidateDirs v (plugin :: later)) →
            [first, other].Sublist (build t v).others) ∧
        ∀ name, Path.isAbsolute name = false → t.isFile (Path.join dir name) = true →
          ∃ found ∈ (build t v).others, found ∈ candidateDirs v (plugin :: later) ∧
            (build t v).find? t name = some (Path.join found name) := by
  have hothers := others_build t v
  refine ⟨by rw [dirs, hothers]; rfl, fun theme htheme => ⟨fun h => ?_, fun h => ?_⟩, ?_, ?_⟩
  · rw [hothers, candidateDirs, htheme, Option.toList_some, List.cons_append, List.filter_cons_of_pos h]
    rfl
  · have hmem : theme ∈ (build t v).others := List.mem_of_mem_head? h
    rw [hothers] at hmem
    exact (List.mem_filter.1 (Path.mem_of_mem_firsts hmem)).2
  · rw [hothers]
    exact Path.pairwise_firsts _
  · intro earlier plugin later hplugins dir hdir hexists
    -- the directories of the theme, the plugin and those declared after it come first
    generalize hfront : (candidateDirs v (plugin :: later)).filter t.isDirectory = front
    obtain ⟨back, hsplit⟩ : ∃ back, (build t v).others = firsts front ++ back := by
      rw [hothers, hplugins, candidateDirs_append, List.filter_append, hfront]
      exact ⟨_, Path.firsts_append _ _⟩
    have hmem : dir ∈ front := by
      rw [← hfront, List.mem_filter, candidateDirs, List.reverse_cons, List.flatMap_append]
      simp [hdir, hexists]
    obtain ⟨first, hfirst, hsteps⟩ := Path.exists_mem_firsts (Path.isAmong_of_mem hmem)
    have hfound {found : Chars} (h : found ∈ firsts front) :
        found ∈ candidateDirs v (plugin :: later) ∧ t.isDirectory found = true := by
      have h := Path.mem_of_mem_firsts h
      rw [← hfront] at h
      exact List.mem_filter.1 h
    refine ⟨⟨first, hsplit ▸ List.mem_append_left back hfirst, hsteps, fun other hother hnot => ?_⟩, fun name hname h => ?_⟩
    · rw [hsplit] at hother ⊢
      have hback := (List.mem_append.1 hother).resolve_left fun h => hnot (Path.isAmong_of_mem (hfound h).1)
      exact (List.singleton_sublist.2 hfirst).append (List.singleton_sublist.2 hback)
    · have hsame := FileTree.isFile_join_of_steps hexists (hfound hfirst).2 hsteps.symm hname h
      have hdirs : (build t v).dirs = firsts front ++ (back ++ [v.coreDir]) := by
        rw [dirs, hsplit, List.append_assoc]
        rfl
      obtain ⟨found, hmem, hfind⟩ := find?_of_mem hdirs hfirst hsame
      exact ⟨found, hsplit ▸ List.mem_append_left back hmem, (hfound hmem).1, hfind⟩

/-- The plugin that is declared last comes first, and a directory that is spelled twice counts once. -/
theorem build_precedence_latest :
    let v : Views := { coreDir := "/core".toList, themeDir := some "/theme".toList, pluginsDir := "/plugins".toList,
                       plugins := ["old".toList, "new".toList], folders := ["view".toList, "./view".toList] }
    let t := (((FileTree.empty ["theme".toList]).addFile ["plugins".toList, "old".toList, "view".toList, "a".toList]
      ⟨some "old".toList, 0⟩).addFile ["plugins".toList, "new".toList, "view".toList, "a".toList] ⟨some "new".toList, 0⟩)
    t.isFile "/plugins/new/view/a".toList = true ∧
    (build t v).dirs = ["/theme", "/plugins/new/view", "/plugins/old/view", "/core"].map String.toList ∧
    ["/plugins/new/view".toList, "/plugins/old/view".toList].Sublist (build t v).others ∧
    ∃ found ∈ (build t v).others, found ∈ candidateDirs v ["new".toList] ∧
      (build t v).find? t "a".toList = some (Path.join found "a".toList) := by
  intro v t
  have hfile : t.isFile "/plugins/new/view/a".toList = true := by decide +kernel
  obtain ⟨-, hfind⟩ := (build_precedence t v).2.2.2 ["old".toList] "new".toList [] rfl "/plugins/new/view".toList
    (by decide +kernel) (by decide +kernel)
  exact ⟨hfile, by decide +kernel, by decide +kernel, hfind "a".toList rfl hfile⟩

end SearchPath
end ViewBridge
