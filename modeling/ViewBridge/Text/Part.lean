import ViewBridge.Text.Basic
import ViewBridge.Text.Case
/-!
# Parts of a text

The helpers of templates that cut a text: by position, by separator, by byte and by a set of characters at its
ends. Positions count characters; negative ones count from the end, and nothing is out of range.

Results:
* `join_pieces`: the pieces of a text, joined again, are the text.
* `join_piecesUpTo`: so are they when their number is limited.
-/
namespace ViewBridge.Text

/-! ## Between positions -/

/-- The sum of two 64-bit integers; one that is out of range is the end of the range that it lies behind. -/
def saturatingAdd (a b : Int64) : Int64 := Int64.ofIntClamp (a.toInt + b.toInt)

/-- The character position that an offset means in a text of `n` characters. -/
def startOf (n start : Int64) : Int64 :=
  if start < 0 then max (saturatingAdd n start) 0 else min start n

/-- The position where a part ends that starts at `b` and has the given length. -/
def endOf (n b : Int64) : Option Int64 → Int64
  | none => n
  | some l => if l < 0 then max (saturatingAdd n l) b else min (saturatingAdd b l) n

/-- The characters at the positions from `b` up to `e`, if these are positions of the text. -/
def between? (s : Chars) (b e : Int64) : Option Chars :=
  let first := b.toUInt64.toNat
  let last := e.toUInt64.toNat
  if first ≤ last ∧ last ≤ s.length then some ((s.take last).drop first) else none

/-- The characters from an offset on, as many as asked for. -/
def part? (s : Chars) (start : Int64) (length : Option Int64) : Option Chars :=
  let n := Int64.ofNat s.length
  let b := startOf n start
  let e := endOf n b length
  if e ≤ b then some [] else between? s b e

/-- The characters from an offset on, where offset and length are integers that fit 64 bits. -/
def part (s : Chars) (start : Int) (length : Option Int) : Chars :=
  (part? s (.ofInt start) (length.map .ofInt)).getD []

/-! ## Between separators -/

/-- The parts of a text between separators. The empty separator matches before, between and after all
characters. -/
def pieces (sep s : Chars) : List Chars :=
  if sep = [] then [] :: s.map (fun c => [c]) ++ [[]] else splitOn sep s

theorem join_nil_eq_flatten (ps : List Chars) : join [] ps = ps.flatten := by
  induction ps with
  | nil => rfl
  | cons p ps ih =>
    cases ps with
    | nil => simp [join]
    | cons q qs => simp [join, ih]

theorem flatten_singletons (s : Chars) : (s.map fun c => [c]).flatten = s := by
  induction s with
  | nil => rfl
  | cons c cs ih => simp [ih]

theorem join_pieces (sep s : Chars) : join sep (pieces sep s) = s := by
  unfold pieces
  split
  · subst_vars
    rw [join_nil_eq_flatten]
    simp [List.flatten_append, flatten_singletons]
  · exact join_splitOn sep s

/-- At most `n` parts, but at least one: the last one keeps what further separators would cut. -/
def piecesUpTo (sep : Chars) (n : Nat) (s : Chars) : List Chars :=
  if sep = [] then
    let ps := pieces sep s
    if ps.length ≤ n then ps else ps.take (n - 1) ++ [(ps.drop (n - 1)).flatten]
  else splitAtMost sep (n - 1) s

theorem splitAtMost_ne_nil (sep : Chars) (n : Nat) (s : Chars) : splitAtMost sep n s ≠ [] := by
  cases n with
  | zero => exact List.cons_ne_nil s []
  | succ n => rw [splitAtMost]; split <;> simp

theorem join_splitAtMost (sep : Chars) (n : Nat) (s : Chars) : join sep (splitAtMost sep n s) = s := by
  induction n generalizing s with
  | zero => rfl
  | succ n ih =>
    rw [splitAtMost]
    split
    · rfl
    · rename_i pre rest hcut
      rw [join_cons _ _ (splitAtMost_ne_nil _ _ _), ih, (cut?_eq_some hcut)]

theorem join_piecesUpTo (sep : Chars) (n : Nat) (s : Chars) : join sep (piecesUpTo sep n s) = s := by
  unfold piecesUpTo
  split
  · subst_vars
    have hs : (pieces [] s).flatten = s := by rw [← join_nil_eq_flatten, join_pieces]
    simp only
    split
    · exact join_pieces [] s
    · rw [join_nil_eq_flatten, List.flatten_append, List.flatten_singleton, ← List.flatten_append,
        List.take_append_drop, hs]
  · exact join_splitAtMost sep (n - 1) s

/-- The parts of a text, limited as asked: a positive limit bounds their number, zero counts as one, and a
negative limit drops that many parts from the end. -/
def splitLimited (s sep : Chars) : (limit : Option Int) → List Chars
  | none => pieces sep s
  | some n =>
    if 0 ≤ n then piecesUpTo sep (max n 1).toNat s
    else
      let ps := pieces sep s
      ps.take (ps.length - n.natAbs)

/-! ## At bytes -/

/-- The characters of a text, each with the byte that it starts at; the first one starts at `b`. -/
def byteStarts : (b : Nat) → Chars → List (Nat × Char)
  | _, [] => []
  | b, c :: cs => (b, c) :: byteStarts (b + c.utf8Size) cs

/-- The text before and after a byte, if a character starts there or the text ends there. -/
def divideAt? : (b : Nat) → Chars → Option (Chars × Chars)
  | 0, s => some ([], s)
  | _ + 1, [] => none
  | b + 1, c :: cs =>
    if c.utf8Size ≤ b + 1 then (divideAt? (b + 1 - c.utf8Size) cs).map fun (pre, rest) => (c :: pre, rest)
    else none

/-- The byte that the first occurrence of `sep` starts at. -/
def firstByte? (sep s : Chars) : Option Nat := (cut? sep s).map fun (pre, _) => (utf8 pre).length

/-! ## At the ends -/

/-- The characters that trimming removes when none are named. -/
def trimmed : Chars := [' ', '\t', '\n', '\r', '\x00', '\x0b']

/-- A text without the named characters at its ends. -/
def trim (s : Chars) (chars : Option Chars) : Chars :=
  trimWhile (fun c => (chars.getD trimmed).contains c) s

/-- A text with its first character in upper case. -/
def capitalFirst : Chars → Chars
  | [] => []
  | c :: rest => upperChar c ++ rest

/-- A backslash before quotes and backslashes, and the null character spelled out. -/
def addSlashes (s : Chars) : Chars :=
  s.flatMap fun c =>
    if c = '\x27' ∨ c = '\x22' ∨ c = '\\' then ['\\', c]
    else if c = '\x00' then ['\\', '0']
    else [c]

end ViewBridge.Text
