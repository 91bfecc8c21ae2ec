/-!
# Tables

A table is a list of keys with their values. Putting an entry drops the others of its key, so that a key
that stands once stands once from then on. The order of the entries is that of the last time they were put,
the latest first.

Results:
* `lookup_erase`, `lookup_put`: dropping or putting an entry changes what its key finds and nothing else.
* `nodup_put`: no key stands twice after an entry is put if none did before.
-/
namespace ViewBridge.Table

variable {κ α : Type} [BEq κ]

/-- The entries of all keys but one. -/
def erase (t : List (κ × α)) (key : κ) : List (κ × α) := t.filter fun e => e.1 != key

/-- The entries with a value for a key, in place of any other. -/
def put (t : List (κ × α)) (key : κ) (v : α) : List (κ × α) := (key, v) :: erase t key

variable [LawfulBEq κ]

theorem lookup_erase [DecidableEq κ] (t : List (κ × α)) (key other : κ) :
    (erase t key).lookup other = if other = key then none else t.lookup other := by
  induction t with
  | nil => simp [erase]
  | cons e t ih =>
    obtain ⟨k, v⟩ := e
    simp only [erase] at ih ⊢
    by_cases hk : k = key <;> by_cases ho : other = k <;> grind

theorem lookup_put [DecidableEq κ] (t : List (κ × α)) (key other : κ) (v : α) :
    (put t key v).lookup other = if other = key then some v else t.lookup other := by
  by_cases h : other = key
  · simp [put, h]
  · have hb : (other == key) = false := by simpa using h
    simp [put, List.lookup_cons, hb, lookup_erase, h]

theorem nodup_put {t : List (κ × α)} (h : (t.map Prod.fst).Nodup) (key : κ) (v : α) :
    ((put t key v).map Prod.fst).Nodup := by
  refine List.nodup_cons.2 ⟨?_, (List.filter_sublist.map _).nodup h⟩
  simp [erase]

end ViewBridge.Table
