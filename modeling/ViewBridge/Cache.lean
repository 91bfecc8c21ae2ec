import ViewBridge.Table
import ViewBridge.Path
import ViewBridge.Digest
import ViewBridge.Number.Binary
/-!
# The cache of translated text

Translated text is kept by path. An entry answers a request only while both the time the file was last
changed and the digest of its text are those of the request. Looking up and storing are separate steps, and
each counts the request that it decides.

Results:
* `lookup_eq_some`: what a lookup answers was stored for that path, time and digest.
* `get?_store`, `get?_invalidate`: storing sets the entry of a path, invalidating drops it, and every other
  entry stays.
* `stats_lookup`, `stats_store`: a hit or a miss is counted, never both.
-/
namespace ViewBridge

/-- What is kept for a path. -/
structure CacheEntry where
  modified : Int
  digest : Chars
  translated : Chars
deriving DecidableEq, Repr

/-- What a cache has been asked so far. -/
structure CacheStats where
  requests : Nat := 0
  hits : Nat := 0
  misses : Nat := 0
  entries : Nat := 0
deriving DecidableEq, Repr

namespace CacheStats

/-- The share of requests that were hits; zero before the first request. -/
def ratio (s : CacheStats) : Float :=
  if s.requests = 0 then Binary.ofMagnitude false 0 else Binary.ofInt s.hits / Binary.ofInt s.requests

end CacheStats

/-- Entries by path, and the counts. -/
structure Cache where
  entries : List (List Path.Step × CacheEntry) := []
  stats : CacheStats := {}
deriving DecidableEq, Repr

namespace Cache

/-- The entry of a path. -/
def get? (c : Cache) (path : Chars) : Option CacheEntry := c.entries.lookup (Path.steps path)

/-- The kept text of a path, if time and digest are unchanged; this counts a hit. -/
def lookup (c : Cache) (path : Chars) (modified : Int) (digest : Chars) : Option (Chars × Cache) :=
  match c.get? path with
  | some e =>
    if e.modified = modified ∧ e.digest = digest then
      some (e.translated,
        { c with stats := { c.stats with requests := c.stats.requests + 1, hits := c.stats.hits + 1 } })
    else none
  | none => none

/-- Keep an entry for a path in place of any other; this counts a miss. -/
def store (c : Cache) (path : Chars) (e : CacheEntry) : Cache :=
  let entries := Table.put c.entries (Path.steps path) e
  { entries
    stats := { c.stats with
      requests := c.stats.requests + 1, misses := c.stats.misses + 1, entries := entries.length } }

/-- The translated text that is kept for a path, or a new one that is kept from now on. -/
def getOrTranslate (c : Cache) (path : Chars) (modified : Int) (raw : Chars)
    (translate : Chars → Chars) : Chars × Cache :=
  let digest := Digest.ofText raw
  match c.lookup path modified digest with
  | some found => found
  | none =>
    let translated := translate raw
    (translated, c.store path ⟨modified, digest, translated⟩)

/-- Drop the entry of a path: whether there was one. -/
def invalidate (c : Cache) (path : Chars) : Bool × Cache :=
  match c.get? path with
  | some _ =>
    let entries := Table.erase c.entries (Path.steps path)
    (true, { entries, stats := { c.stats with entries := entries.length } })
  | none => (false, c)

/-- Drop all entries. -/
def clear (c : Cache) : Cache := { entries := [], stats := { c.stats with entries := 0 } }

theorem get?_store (c : Cache) (path other : Chars) (e : CacheEntry) :
    (c.store path e).get? other =
      if Path.steps other = Path.steps path then some e else c.get? other :=
  Table.lookup_put ..

theorem get?_invalidate (c : Cache) (path other : Chars) :
    (c.invalidate path).2.get? other =
      if Path.steps other = Path.steps path then none else c.get? other := by
  unfold invalidate
  cases h : c.get? path with
  | none =>
    by_cases ho : Path.steps other = Path.steps path
    · simp only [get?] at h
      simp [get?, ho, h]
    · simp [ho]
  | some _ => exact Table.lookup_erase ..

theorem lookup_eq_some {c c' : Cache} {path digest text : Chars} {modified : Int}
    (h : c.lookup path modified digest = some (text, c')) :
    c.get? path = some ⟨modified, digest, text⟩ ∧ c'.entries = c.entries := by
  unfold lookup at h
  split at h
  · rename_i e he
    split at h
    · rename_i hm
      simp only [Option.some.injEq, Prod.mk.injEq] at h
      obtain ⟨rfl, rfl⟩ := h
      rw [he]
      simp [← hm.1, ← hm.2]
    · cases h
  · cases h

theorem stats_lookup {c c' : Cache} {path digest text : Chars} {modified : Int}
    (h : c.lookup path modified digest = some (text, c')) :
    c'.stats = { c.stats with requests := c.stats.requests + 1, hits := c.stats.hits + 1 } := by
  unfold lookup at h
  split at h
  · split at h
    · simp only [Option.some.injEq, Prod.mk.injEq] at h
      rw [← h.2]
    · cases h
  · cases h

theorem stats_store (c : Cache) (path : Chars) (e : CacheEntry) :
    (c.store path e).stats.requests = c.stats.requests + 1 ∧
      (c.store path e).stats.misses = c.stats.misses + 1 ∧
      (c.store path e).stats.hits = c.stats.hits ∧
      (c.store path e).stats.entries = (c.store path e).entries.length :=
  ⟨rfl, rfl, rfl, rfl⟩

end Cache
end ViewBridge
