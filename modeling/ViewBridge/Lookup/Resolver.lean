import ViewBridge.Lookup.SearchPath
import ViewBridge.Lookup.Name
import ViewBridge.Cache
import ViewBridge.Translator
/-!
# Resolving templates

A requested name is looked for under each of its variants, each candidate file of a variant, and each
directory of the search path, in that order; the first file found is the template. A legacy template is
translated on the way, through the cache; a native one is returned as it is.

Results:
* `locate_eq_ok`: what is located is a file, and none before it is.
* `cacheKey_of_locate`: the key of a template says where it is and how it is read.
-/
namespace ViewBridge

/-- A search path and the translator of what is found on it. -/
structure Resolver where
  searchPath : SearchPath
  translator : Translator
deriving DecidableEq, Repr

/-- The translator of a project's legacy templates. -/
def Config.translatorTo (c : Config) (d : Dialect) : Translator :=
  ({ dialect := d } : Translator).withExtension c.translator.extension

/-- The resolver of a project, with the search path as its directories are now. -/
def Resolver.ofConfig (t : FileTree) (c : Config) (d : Dialect) : Resolver :=
  ⟨SearchPath.build t c.views, c.translatorTo d⟩

/-- A template as it was found. -/
structure ResolvedTemplate where
  requested : Chars
  name : Chars
  path : Chars
  source : Chars
  legacy : Bool
  modified : Int
deriving DecidableEq, Repr

namespace Resolver

/-- Every candidate of a regular name, with the path it would have in every directory, in the order they are
tried. -/
def places (r : Resolver) (name : Chars) : List (Chars × Chars) :=
  (TemplateName.variants name).flatMap fun variant =>
    (TemplateName.candidates r.translator.extension variant).flatMap fun candidate =>
      r.searchPath.dirs.map fun dir => (candidate, Path.join dir candidate)

/-- The first candidate that is a file, with its path. -/
def locate (r : Resolver) (t : FileTree) (name : Chars) : Except Error (Chars × Chars) :=
  match TemplateName.normalize r.translator.extension name with
  | .error e => .error e
  | .ok normalized =>
    match (r.places normalized).find? fun place => t.isFile place.2 with
    | some place => .ok place
    | none => .error (.templateNotFound name r.searchPath.dirs)

theorem locate_eq_ok {r : Resolver} {t : FileTree} {name : Chars} {place : Chars × Chars}
    (h : r.locate t name = .ok place) :
    t.isFile place.2 = true ∧ ∃ normalized,
      TemplateName.normalize r.translator.extension name = .ok normalized ∧
      place ∈ r.places normalized := by
  unfold locate at h
  split at h
  · cases h
  · rename_i normalized hn
    split at h
    · rename_i found hf
      simp only [Except.ok.injEq] at h
      subst h
      exact ⟨by simpa using List.find?_some hf, normalized, hn, List.mem_of_find?_eq_some hf⟩
    · cases h

/-- Whether a template is legacy. -/
def isLegacy (r : Resolver) (name : Chars) : Bool :=
  TemplateName.isLegacy r.translator.extension name

/-- A template with its source, translated if it is a legacy one; the cache after it. -/
def resolve (r : Resolver) (t : FileTree) (cache : Cache) (name : Chars) :
    Except Error ResolvedTemplate × Cache :=
  match r.locate t name with
  | .error e => (.error e, cache)
  | .ok (found, path) =>
    match t.file path, t.read path with
    | .ok file, .ok raw =>
      let legacy := r.isLegacy found
      let (source, cache) :=
        if legacy then cache.getOrTranslate path file.modified raw r.translator.translate
        else (raw, cache)
      (.ok { requested := name, name := found, path, source, legacy, modified := file.modified }, cache)
    | .error e, _ => (.error (.file e), cache)
    | _, .error e => (.error (.file e), cache)

/-- Whether a name leads to a template. -/
def exists? (r : Resolver) (t : FileTree) (name : Chars) : Bool :=
  match r.locate t name with
  | .ok _ => true
  | .error _ => false

/-- A text that names a template's file and says whether it is translated. -/
def cacheKey (r : Resolver) (t : FileTree) (name : Chars) : Except Error Chars :=
  (r.locate t name).map fun (found, path) =>
    if r.isLegacy found then "legacy:".toList ++ path else path

theorem cacheKey_of_locate {r : Resolver} {t : FileTree} {name found path : Chars}
    (h : r.locate t name = .ok (found, path)) :
    r.cacheKey t name = .ok (if r.isLegacy found then "legacy:".toList ++ path else path) := by
  rw [cacheKey, h]; rfl

/-- Whether a template has not been changed since a second. -/
def isFresh (r : Resolver) (t : FileTree) (name : Chars) (since : Int) : Except Error Bool :=
  match r.locate t name with
  | .error e => .error e
  | .ok (_, path) =>
    match t.file path with
    | .ok file => .ok (decide (file.modified ≤ since))
    | .error e => .error (.file e)

/-- The source of a template; none if there is no such template. -/
def load (r : Resolver) (t : FileTree) (cache : Cache) (name : Chars) :
    Except Error (Option Chars) × Cache :=
  match r.resolve t cache name with
  | (.ok found, cache) => (.ok (some found.source), cache)
  | (.error (.templateNotFound ..), cache) => (.ok none, cache)
  | (.error e, cache) => (.error e, cache)

end Resolver
end ViewBridge
