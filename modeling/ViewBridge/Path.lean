import ViewBridge.Text.Basic
/-!
# Paths

A path is a text with slashes. Two paths are the same when their steps are: empty segments and single dots
inside a path do not count, a leading slash, a leading dot and double dots do.

Results:
* `join_segments`: the segments of a path, joined again, are the path.
* `segments_join`: segments without slashes are read back.
-/
namespace ViewBridge.Path

/-- Whether a path starts at the root. -/
def isAbsolute (p : Chars) : Bool := p.head? == some '/'

/-- A path below a directory; an absolute path stays as it is. -/
def join (dir p : Chars) : Chars :=
  if isAbsolute p || dir == [] then p
  else if dir.getLast? = some '/' then dir ++ p
  else dir ++ '/' :: p

/-- The parts of a path between its slashes. -/
def segments : Chars → List Chars
  | [] => [[]]
  | c :: cs =>
    if c = '/' then [] :: segments cs
    else match segments cs with
      | [] => [[c]]
      | p :: ps => (c :: p) :: ps

theorem segments_ne_nil (s : Chars) : segments s ≠ [] := by
  cases s with
  | nil => simp [segments]
  | cons c cs =>
    simp only [segments]
    split
    · simp
    · split <;> simp

theorem join_segments (s : Chars) : Text.join ['/'] (segments s) = s := by
  induction s with
  | nil => rfl
  | cons c cs ih =>
    simp only [segments]
    split
    · rename_i h
      rw [Text.join_cons _ _ (segments_ne_nil cs), ih, h]
      rfl
    · split
      · rename_i h
        exact absurd h (segments_ne_nil cs)
      · rename_i p ps h
        rw [h] at ih
        cases ps with
        | nil => simpa [Text.join] using ih
        | cons q qs => simpa [Text.join] using ih

theorem slash_not_mem_of_mem_segments {s p : Chars} (h : p ∈ segments s) : '/' ∉ p := by
  induction s generalizing p with
  | nil => simp [segments] at h; simp [h]
  | cons c cs ih =>
    simp only [segments] at h
    split at h
    · rcases List.mem_cons.1 h with rfl | h
      · simp
      · exact ih h
    · rename_i hc
      split at h
      · simp only [List.mem_singleton] at h
        subst h
        simpa using fun h => hc h.symm
      · rename_i q qs hq
        rcases List.mem_cons.1 h with rfl | h
        · have := ih (p := q) (by simp [hq])
          simp only [List.mem_cons, not_or]
          exact ⟨fun h => hc h.symm, this⟩
        · exact ih (by simp [hq, h])

theorem segments_of_no_slash {s : Chars} (h : '/' ∉ s) : segments s = [s] := by
  induction s with
  | nil => rfl
  | cons c cs ih =>
    simp only [List.mem_cons, not_or] at h
    simp [segments, ih h.2, Ne.symm h.1]

theorem segments_append_slash {p : Chars} (h : '/' ∉ p) (rest : Chars) :
    segments (p ++ '/' :: rest) = p :: segments rest := by
  induction p with
  | nil => simp [segments]
  | cons c cs ih =>
    simp only [List.mem_cons, not_or] at h
    simp [segments, ih h.2, Ne.symm h.1]

theorem segments_join {ps : List Chars} (hn : ps ≠ []) (h : ∀ p ∈ ps, '/' ∉ p) :
    segments (Text.join ['/'] ps) = ps := by
  induction ps with
  | nil => exact absurd rfl hn
  | cons p ps ih =>
    cases ps with
    | nil => exact segments_of_no_slash (h p (by simp))
    | cons q qs =>
      rw [Text.join_cons _ _ (by simp), List.append_assoc, List.singleton_append,
        segments_append_slash (h p (by simp)), ih (by simp) fun r hr => h r (by simp [hr])]

/-- What a segment of a path means. -/
inductive Step where
  | root
  | here
  | up
  | name (s : Chars)
deriving DecidableEq, Repr

/-- The step of a segment; empty segments and single dots are none. -/
def step? (segment : Chars) : Option Step :=
  if segment = [] ∨ segment = ['.'] then none
  else if segment = ['.', '.'] then some .up
  else some (.name segment)

/-- Whether a path starts with a single dot. -/
def startsHere (p : Chars) : Bool := (segments p).head? == some ['.']

/-- The steps of a path, by which paths are compared. -/
def steps (p : Chars) : List Step :=
  (if isAbsolute p then [.root] else if startsHere p then [.here] else []) ++
    (segments p).filterMap step?

/-- A path without the segments at its end that mean nothing. -/
def dropIdle (segments : List Chars) : List Chars :=
  (segments.reverse.dropWhile fun s => (step? s).isNone).reverse

/-- The path without its last step; a root and an empty path have no parent. -/
def parent? (p : Chars) : Option Chars :=
  let lead : Chars := if isAbsolute p then ['/'] else if startsHere p then ['.'] else []
  let body := dropIdle (segments (p.drop lead.length))
  if body = [] then (if lead = ['.'] then some [] else none)
  else some (lead ++ Text.join ['/'] (dropIdle body.dropLast))

end ViewBridge.Path
