import Mathlib.Data.List.Basic
import ViewBridge.Proofs.Lookup.Confinement
/-!
# The order of a lookup

A lookup is a search over triples: a shape of the name, the file of that shape or its counterpart, and a
directory. The triples have a fixed order in which the shape counts most and the directory least. Names of
different shapes may coincide, which changes nothing: what is found is what the first triple gives that leads
to a file.

Results:
* `find?_flatMap_dedupe`: later repetitions do not matter to a search.
* `find?_places_eq_some_iff`, `find?_places_eq_none_iff`: what a resolver finds, by its triples.
* `resolve_first`: every operation of a resolver decides on the first triple that leads to a file, and a
  template is not found exactly if there is none.
-/
namespace ViewBridge

/-! ## Searches -/

/-- A search through what a list in some order gives is a search for the first element of that order. -/
theorem find?_filterMap_eq_some_iff {α β : Type} {before : α → α → Prop}
    (hasymm : ∀ a b, before a b → ¬ before b a) {f : α → Option β} {p : β → Bool} {xs : List α}
    (hxs : xs.Pairwise before) {y : β} :
    (xs.filterMap f).find? p = some y ↔ ∃ a ∈ xs, f a = some y ∧ p y = true ∧
      ∀ b ∈ xs, before b a → ∀ z, f b = some z → p z = false := by
  induction xs with
  | nil => simp
  | cons x xs ih =>
    rw [List.pairwise_cons] at hxs
    have hlater {b : α} (hb : b ∈ x :: xs) : ¬ before b x := by
      rcases List.mem_cons.1 hb with rfl | hb
      · exact fun h => hasymm _ _ h h
      · exact hasymm _ _ (hxs.1 b hb)
    -- an element that is passed over does not count
    have hskip (hx : ∀ z, f x = some z → p z = false) :
        (xs.filterMap f).find? p = some y ↔ ∃ a ∈ x :: xs, f a = some y ∧ p y = true ∧
          ∀ b ∈ x :: xs, before b a → ∀ z, f b = some z → p z = false := by
      rw [ih hxs.2]
      constructor
      · rintro ⟨a, ha, hy, hp, hfirst⟩
        refine ⟨a, List.mem_cons_of_mem x ha, hy, hp, fun b hb hba => ?_⟩
        rcases List.mem_cons.1 hb with rfl | hb
        · exact hx
        · exact hfirst b hb hba
      · rintro ⟨a, ha, hy, hp, hfirst⟩
        rcases List.mem_cons.1 ha with rfl | ha
        · rw [hx y hy] at hp
          cases hp
        · exact ⟨a, ha, hy, hp, fun b hb => hfirst b (List.mem_cons_of_mem x hb)⟩
    cases hf : f x with
    | none =>
      rw [List.filterMap_cons_none hf]
      exact hskip fun z hz => by simp [hf] at hz
    | some z =>
      rw [List.filterMap_cons_some hf]
      cases hz : p z with
      | false =>
        rw [List.find?_cons_of_neg (by simp [hz])]
        exact hskip fun w hw => by rw [← Option.some.inj (hf.symm.trans hw), hz]
      | true =>
        rw [List.find?_cons_of_pos hz, Option.some.injEq]
        constructor
        · rintro rfl
          exact ⟨x, List.mem_cons_self, hf, hz, fun b hb hbx => absurd hbx (hlater hb)⟩
        · rintro ⟨a, ha, hy, -, hfirst⟩
          rcases List.mem_cons.1 ha with rfl | ha
          · exact Option.some.inj (hf.symm.trans hy)
          · have := hfirst x List.mem_cons_self (hxs.1 a ha) z hf
            rw [hz] at this
            cases this

namespace TemplateName

/-- Later repetitions do not matter to a search. -/
theorem find?_flatMap_dedupe {β : Type} (g : Chars → List β) (p : β → Bool) (xs : List Chars) :
    ((dedupe xs).flatMap g).find? p = (xs.flatMap g).find? p := by
  have hfold (seen : List Chars) :
      ((xs.foldl (fun seen x => if seen.contains x then seen else seen ++ [x]) seen).flatMap g).find? p =
        ((seen ++ xs).flatMap g).find? p := by
    induction xs generalizing seen with
    | nil => simp
    | cons x xs ih =>
      rw [List.foldl_cons, ih]
      split
      · rename_i hx
        rw [List.contains_iff_mem] at hx
        simp only [List.flatMap_append, List.flatMap_cons, List.find?_append]
        cases hseen : (seen.flatMap g).find? p with
        | some y => rfl
        | none =>
          -- what the repetition gives has been searched before
          have hnone : (g x).find? p = none := by
            rw [List.find?_eq_none] at hseen ⊢
            exact fun y hy => hseen y (List.mem_flatMap.2 ⟨x, hx, hy⟩)
          rw [hnone]
          rfl
      · simp
  exact hfold []

/-! ## Triples -/

/-- The paths under which a name is looked up: all of it, its last segment, what follows its first segment,
its last two segments. -/
inductive Shape where
  | whole
  | base
  | tail
  | lastTwo
deriving DecidableEq, Repr

namespace Shape

/-- The place of a shape in the order. -/
def rank : Shape → Nat
  | whole => 0
  | base => 1
  | tail => 2
  | lastTwo => 3

/-- The shapes in their order. -/
def all : List Shape := [whole, base, tail, lastTwo]

/-- The path that a name has in a shape; nothing follows the first segment of a name that has only one. -/
def path? (shape : Shape) (name : Chars) : Option Chars :=
  let segments := Path.segments name
  match shape with
  | whole => some name
  | base => segments.getLast?
  | tail => if 1 < segments.length then some (Text.join ['/'] segments.tail) else none
  | lastTwo => some (Text.join ['/'] (segments.drop (segments.length - 2)))

end Shape

theorem variants_eq (name : Chars) : variants name = dedupe (Shape.all.filterMap (·.path? name)) := by
  have hjoin := Path.join_segments name
  have hne := Path.segments_ne_nil name
  unfold variants
  simp only [Shape.all, Shape.path?]
  generalize Path.segments name = segments at hjoin hne ⊢
  obtain ⟨init, last, rfl⟩ := (List.eq_nil_or_concat' segments).resolve_left hne
  have hdrop : (init ++ [last]).drop ((init ++ [last]).length - 1) = [last] := by simp
  split
  · rename_i hlength
    have hinit : init = [] := by simpa using hlength
    subst hinit
    subst hjoin
    simp [Text.join, dedupe]
  · rename_i hlength
    have hmany : 1 < (init ++ [last]).length := by omega
    simp only [List.map_cons, List.map_nil, hdrop, List.filterMap_cons, List.filterMap_nil,
      List.getLast?_concat, List.drop_one, if_pos hmany]
    rfl

/-- The native file that may stand for a legacy one, and the other way round. -/
def counterpart? (extension name : Chars) : Option Chars :=
  match Text.before? ('.' :: extension ++ ".twig".toList) name with
  | some stem => some (stem ++ '.' :: extension)
  | none => if Text.endsWith ('.' :: extension) name then some (name ++ ".twig".toList) else none

theorem candidates_eq (extension name : Chars) :
    candidates extension name = name :: (counterpart? extension name).toList := by
  unfold candidates counterpart?
  simp only
  cases hstem : Text.before? ('.' :: extension ++ ".twig".toList) name with
  | some stem => rfl
  | none => simp only; split <;> rfl

end TemplateName

open TemplateName (Shape)

/-- A triple of a lookup: a shape of the name, the file itself or its counterpart, a directory by its number
on the search path. -/
structure Trial where
  shape : Shape
  counterpart : Bool
  dir : Nat
deriving DecidableEq, Repr

namespace Trial

/-- The file that a triple looks for. -/
def file? (r : Resolver) (name : Chars) (a : Trial) : Option Chars :=
  (a.shape.path? name).bind fun variant =>
    if a.counterpart then TemplateName.counterpart? r.translator.extension variant else some variant

/-- What a triple stands for: the name of a file and its path. -/
def place? (r : Resolver) (name : Chars) (a : Trial) : Option (Chars × Chars) :=
  (a.file? r name).bind fun file => (r.searchPath.dirs[a.dir]?).map fun dir => (file, Path.join dir file)

/-- The order of triples: by shape, then the file itself before its counterpart, then by directory. -/
def Before (a b : Trial) : Prop :=
  a.shape.rank < b.shape.rank ∨ a.shape = b.shape ∧
    (a.counterpart = false ∧ b.counterpart = true ∨ a.counterpart = b.counterpart ∧ a.dir < b.dir)

instance (a b : Trial) : Decidable (a.Before b) := inferInstanceAs (Decidable (_ ∨ _))

theorem Before.asymm (a b : Trial) (h : a.Before b) : ¬ b.Before a := by
  unfold Before at *
  grind

/-- The triples of so many directories, in their order. -/
def all (n : Nat) : List Trial :=
  Shape.all.flatMap fun shape => [false, true].flatMap fun counterpart =>
    (List.range n).map fun dir => ⟨shape, counterpart, dir⟩

theorem mem_all {n : Nat} {a : Trial} : a ∈ all n ↔ a.dir < n := by
  obtain ⟨shape, counterpart, dir⟩ := a
  cases shape <;> cases counterpart <;> simp [all, Shape.all]

theorem pairwise_all (n : Nat) : (all n).Pairwise Before := by
  have hdirs (shape : Shape) (counterpart : Bool) :
      ((List.range n).map fun dir => (⟨shape, counterpart, dir⟩ : Trial)).Pairwise Before := by
    rw [List.pairwise_map]
    exact List.pairwise_lt_range.imp fun h => .inr ⟨rfl, .inr ⟨rfl, h⟩⟩
  have hfiles (shape : Shape) : ([false, true].flatMap fun counterpart =>
      (List.range n).map fun dir => (⟨shape, counterpart, dir⟩ : Trial)).Pairwise Before := by
    rw [List.pairwise_flatMap]
    refine ⟨fun counterpart _ => hdirs shape counterpart, ?_⟩
    simp [Before]
  rw [all, List.pairwise_flatMap]
  refine ⟨fun shape _ => hfiles shape, ?_⟩
  have hrank : Shape.all.Pairwise fun a b => a.rank < b.rank := by decide
  refine hrank.imp fun h x hx y hy => .inl ?_
  simp only [List.mem_flatMap, List.mem_map] at hx hy
  obtain ⟨-, -, -, -, rfl⟩ := hx
  obtain ⟨-, -, -, -, rfl⟩ := hy
  exact h

theorem dir_lt_of_place? {r : Resolver} {name : Chars} {a : Trial} {place : Chars × Chars}
    (h : a.place? r name = some place) : a.dir < r.searchPath.dirs.length := by
  obtain ⟨file, -, h⟩ := Option.bind_eq_some_iff.1 h
  obtain ⟨dir, hdir, -⟩ := Option.map_eq_some_iff.1 h
  exact (List.getElem?_eq_some_iff.1 hdir).1

end Trial

namespace Resolver

/-- The triples one after the other give what is tried, later repetitions aside. -/
theorem filterMap_place? (r : Resolver) (name : Chars) :
    (Trial.all r.searchPath.dirs.length).filterMap (·.place? r name) =
      (Shape.all.filterMap (·.path? name)).flatMap fun variant =>
        (TemplateName.candidates r.translator.extension variant).flatMap fun candidate =>
          r.searchPath.dirs.map fun dir => (candidate, Path.join dir candidate) := by
  have hdirs (file : Chars) (dirs : List Chars) :
      (List.range dirs.length).filterMap (fun dir => (dirs[dir]?).map fun dir => (file, Path.join dir file)) =
      dirs.map fun dir => (file, Path.join dir file) := by
    induction dirs with
    | nil => rfl
    | cons d ds ih =>
      rw [List.length_cons, List.range_succ_eq_map, List.filterMap_cons, List.filterMap_map]
      simpa [Function.comp_def] using ih
  have hfiles (shape : Shape) (counterpart : Bool) :
      (List.range r.searchPath.dirs.length).filterMap
          (fun dir => (⟨shape, counterpart, dir⟩ : Trial).place? r name) =
        ((⟨shape, counterpart, 0⟩ : Trial).file? r name).toList.flatMap fun file =>
          r.searchPath.dirs.map fun dir => (file, Path.join dir file) := by
    have hfile (dir : Nat) : (⟨shape, counterpart, dir⟩ : Trial).file? r name =
        (⟨shape, counterpart, 0⟩ : Trial).file? r name := rfl
    simp only [Trial.place?, hfile]
    cases (⟨shape, counterpart, 0⟩ : Trial).file? r name with
    | none => simp
    | some file => simpa using hdirs file r.searchPath.dirs
  rw [Trial.all, List.filterMap_flatMap, List.filterMap_eq_flatMap_toList, List.flatMap_assoc]
  congr 1
  funext shape
  rw [List.filterMap_flatMap]
  simp only [List.filterMap_map, Function.comp_def, hfiles, Trial.file?]
  cases shape.path? name with
  | none => simp
  | some variant => simp [TemplateName.candidates_eq]

/-- A triple that leads to a file when no triple before it does. -/
structure First (r : Resolver) (t : FileTree) (name : Chars) (a : Trial) (place : Chars × Chars) : Prop where
  leads : a.place? r name = some place
  isFile : t.isFile place.2 = true
  first : ∀ b : Trial, b.Before a → ∀ p, b.place? r name = some p → t.isFile p.2 = false

/-- No triple leads to a file. -/
def Missing (r : Resolver) (t : FileTree) (name : Chars) : Prop :=
  ∀ (a : Trial) (place : Chars × Chars), a.place? r name = some place → t.isFile place.2 = false

theorem find?_places (r : Resolver) (name : Chars) (p : Chars × Chars → Bool) :
    (r.places name).find? p =
      ((Trial.all r.searchPath.dirs.length).filterMap (·.place? r name)).find? p := by
  rw [filterMap_place?, places, TemplateName.variants_eq]
  exact TemplateName.find?_flatMap_dedupe _ p _

theorem find?_places_eq_some_iff {r : Resolver} {t : FileTree} {name : Chars} {place : Chars × Chars} :
    (r.places name).find? (fun p => t.isFile p.2) = some place ↔ ∃ a, r.First t name a place := by
  rw [find?_places, find?_filterMap_eq_some_iff Trial.Before.asymm (Trial.pairwise_all _)]
  constructor
  · rintro ⟨a, -, hplace, hfile, hfirst⟩
    exact ⟨a, hplace, hfile, fun b hb p hp => hfirst b (Trial.mem_all.2 (Trial.dir_lt_of_place? hp)) hb p hp⟩
  · rintro ⟨a, hplace, hfile, hfirst⟩
    exact ⟨a, Trial.mem_all.2 (Trial.dir_lt_of_place? hplace), hplace, hfile, fun b _ hb => hfirst b hb⟩

theorem find?_places_eq_none_iff {r : Resolver} {t : FileTree} {name : Chars} :
    (r.places name).find? (fun p => t.isFile p.2) = none ↔ r.Missing t name := by
  rw [find?_places, List.find?_eq_none]
  constructor
  · intro h a place hplace
    simpa using h place (List.mem_filterMap.2
      ⟨a, Trial.mem_all.2 (Trial.dir_lt_of_place? hplace), hplace⟩)
  · intro h place hplace
    obtain ⟨a, -, ha⟩ := List.mem_filterMap.1 hplace
    simpa using h a place ha

/-! ## What the operations decide on -/

variable {r : Resolver} {t : FileTree} {name normalized : Chars}

theorem locate_of_first (hname : TemplateName.normalize r.translator.extension name = .ok normalized)
    {a : Trial} {place : Chars × Chars} (h : r.First t normalized a place) : r.locate t name = .ok place := by
  rw [locate, hname]
  simp only
  rw [find?_places_eq_some_iff.2 ⟨a, h⟩]

theorem locate_eq_templateNotFound_iff
    (hname : TemplateName.normalize r.translator.extension name = .ok normalized) {n : Chars}
    {searched : List Chars} :
    r.locate t name = .error (.templateNotFound n searched) ↔
      n = name ∧ searched = r.searchPath.dirs ∧ r.Missing t normalized := by
  rw [← find?_places_eq_none_iff, locate, hname]
  simp only
  cases (r.places normalized).find? fun place => t.isFile place.2 with
  | some place => simp
  | none => simp [eq_comm]

/-- A lookup fails in one of two ways: the name is refused, or no triple leads to a file. -/
theorem locate_eq_error {e : Error} (h : r.locate t name = .error e) :
    e = .invalidTemplateName name ∨ e = .templateNotFound name r.searchPath.dirs := by
  unfold locate at h
  split at h
  · rename_i e' hn
    rw [← Except.error.inj h]
    exact .inl (TemplateName.normalize_eq_error_iff.1 hn).2
  · split at h
    · cases h
    · exact .inr (Except.error.inj h).symm

/-- What is made of a file that was found: its text, translated if it is a legacy template, or the complaint
that it has none. -/
theorem resolve_of_locate (cache : Cache) {found path : Chars} (h : r.locate t name = .ok (found, path)) :
    ∃ f, t.file path = .ok f ∧
      r.resolve t cache name = match f.text with
        | some raw =>
          let source := if r.isLegacy found then
              cache.getOrTranslate path f.modified raw r.translator.translate else (raw, cache)
          (.ok ⟨name, found, path, source.1, r.isLegacy found, f.modified⟩, source.2)
        | none => (.error (.file .invalidUtf8), cache) := by
  obtain ⟨loc, f, -, hf⟩ := FileTree.isFile_eq_true (locate_eq_ok h).1
  refine ⟨f, hf, ?_⟩
  rw [resolve, h]
  simp only [FileTree.read, hf]
  cases f.text with
  | none => rfl
  | some raw => simp only

theorem resolve_eq_error_iff {cache : Cache} {e : Error} :
    (r.resolve t cache name).1 = .error e ↔
      r.locate t name = .error e ∨
        e = .file .invalidUtf8 ∧ ∃ found path f, r.locate t name = .ok (found, path) ∧
          t.file path = .ok f ∧ f.text = none := by
  cases hl : r.locate t name with
  | error e' => simp [resolve, hl]
  | ok place =>
    obtain ⟨found, path⟩ := place
    obtain ⟨f, hf, hresolve⟩ := resolve_of_locate cache hl
    rw [hresolve]
    cases htext : f.text with
    | none =>
      simp only [Except.error.injEq, reduceCtorEq, false_or, Except.ok.injEq, Prod.mk.injEq]
      constructor
      · rintro rfl
        exact ⟨rfl, found, path, f, ⟨rfl, rfl⟩, hf, htext⟩
      · exact fun h => h.1.symm
    | some raw =>
      simp only [reduceCtorEq, false_or, Except.ok.injEq, Prod.mk.injEq, false_iff, not_and]
      rintro - ⟨found', path', f', ⟨rfl, rfl⟩, hf', htext'⟩
      rw [hf, Except.ok.injEq] at hf'
      rw [hf', htext'] at htext
      cases htext

theorem load_eq (r : Resolver) (t : FileTree) (cache : Cache) (name : Chars) :
    r.load t cache name = match r.resolve t cache name with
      | (.ok template, cache') => (.ok (some template.source), cache')
      | (.error (.templateNotFound ..), cache') => (.ok none, cache')
      | (.error e, cache') => (.error e, cache') := rfl

theorem load_of_locate (cache : Cache) {found path : Chars} (h : r.locate t name = .ok (found, path)) :
    ∃ f, t.file path = .ok f ∧
      r.load t cache name = match f.text with
        | some raw =>
          let source := if r.isLegacy found then
              cache.getOrTranslate path f.modified raw r.translator.translate else (raw, cache)
          (.ok (some source.1), source.2)
        | none => (.error (.file .invalidUtf8), cache) := by
  obtain ⟨f, hf, hresolve⟩ := resolve_of_locate cache h
  refine ⟨f, hf, ?_⟩
  rw [load_eq, hresolve]
  cases f.text <;> rfl

/-- What is loaded for a name of a file, with nothing cached. -/
theorem load_empty_of_locate {found path : Chars} (h : r.locate t name = .ok (found, path)) :
    ∃ f, t.file path = .ok f ∧
      (r.load t {} name).1 = match f.text with
        | some raw => .ok (some (if r.isLegacy found then r.translator.translate raw else raw))
        | none => .error (.file .invalidUtf8) := by
  obtain ⟨f, hf, hload⟩ := load_of_locate {} h
  refine ⟨f, hf, ?_⟩
  rw [hload]
  cases f.text with
  | none => rfl
  | some raw => cases r.isLegacy found <;> rfl

theorem load_eq_none_iff {cache : Cache} :
    (r.load t cache name).1 = .ok none ↔
      ∃ n searched, (r.resolve t cache name).1 = .error (.templateNotFound n searched) := by
  rw [load_eq]
  obtain ⟨result, cache'⟩ := r.resolve t cache name
  cases result with
  | ok template => simp
  | error e => cases e <;> simp

/-- The first triple that leads to a file decides every operation on a usable name. A template is not found
exactly if no triple leads to a file; that is told with the name as it was requested and all directories. A
template does not exist exactly if it is not found or its name is refused, and it has no source to load
exactly if it is not found. -/
theorem resolve_first (r : Resolver) (t : FileTree) (cache : Cache) (name : Chars) :
    (∀ normalized, TemplateName.normalize r.translator.extension name = .ok normalized →
      (∀ a found path, r.First t normalized a (found, path) →
        ∃ f, t.file path = .ok f ∧
          r.exists? t name = true ∧
          r.cacheKey t name = .ok (if r.isLegacy found then "legacy:".toList ++ path else path) ∧
          (∀ since, r.isFresh t name since = .ok (decide (f.modified ≤ since))) ∧
          match f.text with
          | some raw =>
            let source := if r.isLegacy found then
                cache.getOrTranslate path f.modified raw r.translator.translate else (raw, cache)
            r.resolve t cache name =
                (.ok ⟨name, found, path, source.1, r.isLegacy found, f.modified⟩, source.2) ∧
              r.load t cache name = (.ok (some source.1), source.2)
          | none =>
            r.resolve t cache name = (.error (.file .invalidUtf8), cache) ∧
              r.load t cache name = (.error (.file .invalidUtf8), cache)) ∧
      (∀ n searched, (r.resolve t cache name).1 = .error (.templateNotFound n searched) ↔
        n = name ∧ searched = r.searchPath.dirs ∧ r.Missing t normalized) ∧
      (r.Missing t normalized ∨ ∃ a place, r.First t normalized a place)) ∧
    (r.exists? t name = false ↔
      (r.resolve t cache name).1 = .error (.templateNotFound name r.searchPath.dirs) ∨
        (r.resolve t cache name).1 = .error (.invalidTemplateName name)) ∧
    ((r.load t cache name).1 = .ok none ↔
      (r.resolve t cache name).1 = .error (.templateNotFound name r.searchPath.dirs)) := by
  have hnotFound {n : Chars} {searched : List Chars} :
      (r.resolve t cache name).1 = .error (.templateNotFound n searched) ↔
        r.locate t name = .error (.templateNotFound n searched) := by
    rw [resolve_eq_error_iff]
    simp
  refine ⟨fun normalized hname => ⟨fun a found path h => ?_, fun n searched => ?_, ?_⟩, ?_, ?_⟩
  · have hl := locate_of_first hname h
    obtain ⟨f, hf, hresolve⟩ := resolve_of_locate cache hl
    refine ⟨f, hf, by rw [exists?, hl], cacheKey_of_locate hl, fun since => by rw [isFresh, hl]; simp [hf], ?_⟩
    cases htext : f.text with
    | some raw =>
      simp only [htext] at hresolve
      exact ⟨hresolve, by rw [load_eq, hresolve]⟩
    | none =>
      simp only [htext] at hresolve
      exact ⟨hresolve, by rw [load_eq, hresolve]⟩
  · rw [hnotFound, locate_eq_templateNotFound_iff hname]
  · cases hfind : (r.places normalized).find? fun place => t.isFile place.2 with
    | some place =>
      obtain ⟨a, ha⟩ := find?_places_eq_some_iff.1 hfind
      exact .inr ⟨a, place, ha⟩
    | none => exact .inl (find?_places_eq_none_iff.1 hfind)
  · have hinvalid : (r.resolve t cache name).1 = .error (.invalidTemplateName name) ↔
        r.locate t name = .error (.invalidTemplateName name) := by
      rw [resolve_eq_error_iff]
      simp
    rw [hnotFound, hinvalid, exists?]
    cases hl : r.locate t name with
    | ok place => simp
    | error e => rcases locate_eq_error hl with rfl | rfl <;> simp
  · rw [load_eq_none_iff]
    constructor
    · rintro ⟨n, searched, h⟩
      rcases locate_eq_error (hnotFound.1 h) with he | he
      · cases he
      · rw [h, he]
    · exact fun h => ⟨_, _, h⟩

/-- The native counterpart of the whole name in the last directory comes before the file of a shorter name in
the first one. -/
theorem resolve_first_counterpart :
    let r : Resolver := ⟨⟨["/theme".toList], "/core".toList⟩, ⟨.twig, "html".toList⟩⟩
    let t := ((FileTree.empty []).addFile ["theme".toList, "a.html".toList] ⟨some "legacy".toList, 0⟩).addFile
      ["core".toList, "x".toList, "a.html.twig".toList] ⟨some "native".toList, 7⟩
    TemplateName.normalize r.translator.extension "x/a".toList = .ok "x/a.html".toList ∧
      r.First t "x/a.html".toList ⟨.whole, true, 1⟩
        ("x/a.html.twig".toList, "/core/x/a.html.twig".toList) ∧
      t.isFile "/theme/a.html".toList = true ∧
      r.exists? t "x/a".toList = true ∧
      r.cacheKey t "x/a".toList = .ok "/core/x/a.html.twig".toList := by
  intro r t
  have hname : TemplateName.normalize r.translator.extension "x/a".toList = .ok "x/a.html".toList := by
    decide +kernel
  have hfirst : r.First t "x/a.html".toList ⟨.whole, true, 1⟩
      ("x/a.html.twig".toList, "/core/x/a.html.twig".toList) := by
    refine ⟨by decide +kernel, by decide +kernel, fun b hb p hp => ?_⟩
    have hearlier : ∀ b ∈ Trial.all 2, b.Before ⟨.whole, true, 1⟩ →
        ((b.place? r "x/a.html".toList).any fun p => t.isFile p.2) = false := by decide +kernel
    have hnone := hearlier b (Trial.mem_all.2 (Trial.dir_lt_of_place? hp)) hb
    rwa [hp, Option.any_some] at hnone
  obtain ⟨f, -, hexists, hkey, -⟩ := ((resolve_first r t {} "x/a".toList).1 _ hname).1 _ _ _ hfirst
  exact ⟨hname, hfirst, by decide +kernel, hexists, hkey⟩

end Resolver
end ViewBridge
