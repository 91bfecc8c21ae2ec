/-!
# Text as a list of characters

All text of this library is a list of characters, so that every scanner is a recursion on the text it
reads. This module holds the operations that every other part uses: reading a fixed lead, cutting at the
first occurrence of a separator, replacing, splitting and joining.

Results:
* `after?_eq_some_iff`: a lead is read exactly when the text is that lead followed by the rest.
* `cut?_eq_some`: cutting loses nothing, and the part before the cut is the shortest possible.
* `join_splitOn`: the parts of a split, joined again, are the text.
* `not_mem_of_mem_splitOn`: the parts between the occurrences of a character hold none.
-/
namespace ViewBridge

/-- A text. -/
abbrev Chars := List Char

namespace Text

/-- What follows `lead` in `s`, if `s` starts with it. -/
def after? : (lead s : Chars) → Option Chars
  | [], s => some s
  | _ :: _, [] => none
  | p :: ps, c :: cs => if p = c then after? ps cs else none

theorem after?_eq_some_iff {lead s r : Chars} : after? lead s = some r ↔ s = lead ++ r := by
  induction lead generalizing s with
  | nil => simp [after?, eq_comm]
  | cons p ps ih =>
    cases s with
    | nil => simp [after?]
    | cons c cs =>
      by_cases h : p = c
      · subst h; simp [after?, ih]
      · simp [after?, h]; intro h'; exact absurd h'.symm h

@[simp] theorem after?_append (lead r : Chars) : after? lead (lead ++ r) = some r :=
  after?_eq_some_iff.2 rfl

/-- Whether `s` starts with `lead`. -/
def startsWith (lead s : Chars) : Bool := (after? lead s).isSome

/-- What precedes `tail` in `s`, if `s` ends with it. -/
def before? (tail s : Chars) : Option Chars :=
  (after? tail.reverse s.reverse).map List.reverse

/-- Whether `s` ends with `tail`. -/
def endsWith (tail s : Chars) : Bool := (before? tail s).isSome

theorem before?_eq_some_iff {tail s r : Chars} : before? tail s = some r ↔ s = r ++ tail := by
  simp only [before?, Option.map_eq_some_iff, after?_eq_some_iff]
  constructor
  · rintro ⟨a, ha, rfl⟩
    have := congrArg List.reverse ha
    simpa using this
  · intro h
    exact ⟨r.reverse, by rw [h]; simp, by simp⟩

/-- The text before and after the first occurrence of `sep`. -/
def cut? (sep : Chars) : Chars → Option (Chars × Chars)
  | [] => if sep = [] then some ([], []) else none
  | c :: cs =>
    match after? sep (c :: cs) with
    | some rest => some ([], rest)
    | none => (cut? sep cs).map fun (pre, rest) => (c :: pre, rest)

theorem cut?_eq_some {sep s pre rest : Chars} (h : cut? sep s = some (pre, rest)) :
    s = pre ++ sep ++ rest := by
  induction s generalizing pre with
  | nil =>
    simp only [cut?] at h
    split at h <;> simp_all
  | cons c cs ih =>
    simp only [cut?] at h
    split at h
    · rename_i r hr
      simp only [Option.some.injEq, Prod.mk.injEq] at h
      obtain ⟨rfl, rfl⟩ := h
      simpa using after?_eq_some_iff.1 hr
    · simp only [Option.map_eq_some_iff, Prod.exists, Prod.mk.injEq] at h
      obtain ⟨p, r, hpr, rfl, rfl⟩ := h
      simp [ih hpr]

theorem cut?_rest_length {sep s pre rest : Chars} (h : cut? sep s = some (pre, rest)) :
    rest.length + sep.length ≤ s.length := by
  rw [cut?_eq_some h]; simp; omega

/-- Whether `sep` occurs somewhere in `s`. -/
def contains (sep s : Chars) : Bool := (cut? sep s).isSome

/-- Every occurrence of `old`, from left to right and without overlap, becomes `new`. -/
def replace (old new : Chars) (s : Chars) : Chars :=
  if _h : old = [] then s
  else match _hs : cut? old s with
    | none => s
    | some (pre, rest) => pre ++ new ++ replace old new rest
termination_by s.length
decreasing_by
  have := cut?_rest_length _hs
  have : 0 < old.length := List.length_pos_iff.2 _h
  omega

/-- The parts of `s` between the occurrences of `sep`; an empty separator separates nothing. -/
def splitOn (sep : Chars) (s : Chars) : List Chars :=
  if _h : sep = [] then [s]
  else match _hs : cut? sep s with
    | none => [s]
    | some (pre, rest) => pre :: splitOn sep rest
termination_by s.length
decreasing_by
  have := cut?_rest_length _hs
  have : 0 < sep.length := List.length_pos_iff.2 _h
  omega

/-- At most `n + 1` parts: the first `n` occurrences of `sep` separate, the last part keeps the others. -/
def splitAtMost (sep : Chars) : (n : Nat) → (s : Chars) → List Chars
  | 0, s => [s]
  | n + 1, s =>
    match cut? sep s with
    | none => [s]
    | some (pre, rest) => pre :: splitAtMost sep n rest

/-- The parts, with `sep` between neighbours. -/
def join (sep : Chars) : List Chars → Chars
  | [] => []
  | [p] => p
  | p :: q :: ps => p ++ sep ++ join sep (q :: ps)

theorem splitOn_ne_nil (sep s : Chars) : splitOn sep s ≠ [] := by
  rw [splitOn]; split
  · simp
  · split <;> simp

theorem join_cons (sep p : Chars) {ps : List Chars} (h : ps ≠ []) :
    join sep (p :: ps) = p ++ sep ++ join sep ps := by
  cases ps with
  | nil => exact absurd rfl h
  | cons q qs => rfl

theorem join_splitOn (sep s : Chars) : join sep (splitOn sep s) = s := by
  induction hn : s.length using Nat.strongRecOn generalizing s with
  | ind n ih =>
    rw [splitOn]
    split
    · rfl
    · rename_i h
      split
      · rfl
      · rename_i pre rest hs
        have hl := cut?_rest_length hs
        have : 0 < sep.length := List.length_pos_iff.2 h
        rw [join_cons _ _ (splitOn_ne_nil _ _), ih rest.length (by omega) rest rfl]
        exact (cut?_eq_some hs).symm

theorem cut?_singleton_cons (a c : Char) (s : Chars) :
    cut? [a] (c :: s) = if a = c then some ([], s) else (cut? [a] s).map fun (pre, rest) => (c :: pre, rest) := by
  by_cases h : a = c <;> simp [cut?, after?, h]

/-- What precedes the first occurrence of a character holds none. -/
theorem not_mem_of_cut? {a : Char} {s pre rest : Chars} (h : cut? [a] s = some (pre, rest)) : a ∉ pre := by
  induction s generalizing pre rest with
  | nil => simp [cut?] at h
  | cons c s ih =>
    rw [cut?_singleton_cons] at h
    split at h
    · rw [← (Prod.mk.inj (Option.some.inj h)).1]
      exact List.not_mem_nil
    · rename_i hne
      obtain ⟨⟨pre', rest'⟩, hcut, heq⟩ := Option.map_eq_some_iff.1 h
      rw [← (Prod.mk.inj heq).1]
      exact List.not_mem_cons_of_ne_of_not_mem hne (ih hcut)

theorem not_mem_of_cut?_eq_none {a : Char} {s : Chars} (h : cut? [a] s = none) : a ∉ s := by
  induction s with
  | nil => exact List.not_mem_nil
  | cons c s ih =>
    rw [cut?_singleton_cons] at h
    split at h
    · cases h
    · rename_i hne
      exact List.not_mem_cons_of_ne_of_not_mem hne (ih (Option.map_eq_none_iff.1 h))

/-- The parts between the occurrences of a character hold none. -/
theorem not_mem_of_mem_splitOn {a : Char} {s p : Chars} (h : p ∈ splitOn [a] s) : a ∉ p := by
  induction hn : s.length using Nat.strongRecOn generalizing s with
  | ind n ih =>
    rw [splitOn, dif_neg (List.cons_ne_nil a [])] at h
    split at h
    · rename_i hcut
      rw [List.mem_singleton.1 h]
      exact not_mem_of_cut?_eq_none hcut
    · rename_i pre rest hcut
      rcases List.mem_cons.1 h with rfl | h
      · exact not_mem_of_cut? hcut
      · have hl := cut?_rest_length hcut
        exact ih rest.length (by simp only [List.length_singleton] at hl; omega) h rfl

/-- The text without the characters of `p` at its end. -/
def dropEndWhile (p : Char → Bool) (s : Chars) : Chars := (s.reverse.dropWhile p).reverse

/-- The text without the characters of `p` at its start and at its end. -/
def trimWhile (p : Char → Bool) (s : Chars) : Chars := dropEndWhile p (s.dropWhile p)

theorem takeWhile_eq_self {p : Char → Bool} {s : Chars} (h : ∀ c ∈ s, p c = true) :
    s.takeWhile p = s := by
  induction s with
  | nil => rfl
  | cons c cs ih => simp_all

theorem dropWhile_eq_nil {p : Char → Bool} {s : Chars} (h : ∀ c ∈ s, p c = true) :
    s.dropWhile p = [] := by
  induction s with
  | nil => rfl
  | cons c cs ih => simp_all

/-- How often `c` occurs. -/
def occurrences (c : Char) (s : Chars) : Nat := s.count c

/-- The part after the last `c`, or all of the text. -/
def afterLast (c : Char) (s : Chars) : Chars := (s.reverse.takeWhile (· != c)).reverse

/-- The UTF-8 bytes of a text. -/
def utf8 (s : Chars) : List UInt8 := s.flatMap String.utf8EncodeChar

/-- The decimal digits of a natural number. -/
def ofNat (n : Nat) : Chars := Nat.toDigits 10 n

theorem ofNat_inj {m n : Nat} (h : ofNat m = ofNat n) : m = n := by
  have hread (n : Nat) : Nat.ofDigitChars 10 (ofNat n) 0 = n := Nat.ofDigitChars_ten_toDigits
  rw [← hread m, h, hread]

/-- An integer in decimal, with a minus sign if it is negative. -/
def ofInt : Int → Chars
  | .ofNat n => ofNat n
  | .negSucc n => '-' :: ofNat (n + 1)

/-- A text filled up with `c` on the left to at least `width` characters. -/
def padLeft (c : Char) (width : Nat) (s : Chars) : Chars :=
  List.replicate (width - s.length) c ++ s

/-- The value of an ASCII digit in base 16. -/
def hexValue? (c : Char) : Option Nat :=
  if '0' ≤ c ∧ c ≤ '9' then some (c.toNat - 48)
  else if 'a' ≤ c ∧ c ≤ 'f' then some (c.toNat - 87)
  else if 'A' ≤ c ∧ c ≤ 'F' then some (c.toNat - 55)
  else none

/-- The number that a text of digits in base `base` writes; `none` for no digit or a foreign character. -/
def readNat? (base : Nat) (s : Chars) : Option Nat :=
  if s = [] then none
  else s.foldl (fun acc c => do
    let n ← acc
    let d ← hexValue? c
    if d < base then some (n * base + d) else none) (some 0)

/-- One character in base 16, in lower case. -/
def hexDigit (n : Nat) : Char := Nat.digitChar n

end Text
end ViewBridge
