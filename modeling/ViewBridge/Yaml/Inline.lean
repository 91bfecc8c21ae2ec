import ViewBridge.Yaml.Line
import ViewBridge.Json.Reader
import ViewBridge.Text.Substitution
/-!
# Inline nodes of YAML

What stands on one logical line: a plain or quoted scalar, or a collection in brackets. Line breaks inside
are folded: one counts as a space, more of them as one break less.
-/
namespace ViewBridge.Yaml

/-- Blanks with a line break among them, folded; `none` if there is no line break. -/
def fold? (s : Chars) : Option (Chars × Chars) :=
  let gap := s.takeWhile isGap
  let breaks := gap.count '\n'
  if breaks = 0 then none
  else some (if breaks = 1 then [' '] else List.replicate (breaks - 1) '\n', s.dropWhile isGap)

/-- A code point of so many digits in base 16. -/
def readHex (digits : Nat) (s : Chars) : Option (Char × Chars) :=
  if s.length < digits then none
  else do
    let n ← Text.readNat? 16 (s.take digits)
    if n < 0x110000 ∧ ¬ (0xD800 ≤ n ∧ n < 0xE000) then some (Char.ofNat n, s.drop digits) else none

/-- The character that a one-letter escape stands for. -/
def escapeOf? (c : Char) : Option Char :=
  match c with
  | '0' => some '\x00'
  | 'a' => some '\x07'
  | 'b' => some '\x08'
  | 't' => some '\t'
  | '\t' => some '\t'
  | 'n' => some '\n'
  | 'v' => some '\x0b'
  | 'f' => some '\x0c'
  | 'r' => some '\r'
  | 'e' => some '\x1b'
  | ' ' => some ' '
  | '\x22' => some '\x22'
  | '/' => some '/'
  | '\\' => some '\\'
  | 'N' => some (Char.ofNat 0x85)
  | '_' => some (Char.ofNat 0xA0)
  | 'L' => some (Char.ofNat 0x2028)
  | 'P' => some (Char.ofNat 0x2029)
  | _ => none

/-- An escape after its backslash: the text it stands for. -/
def readEscape (s : Chars) : Option (Chars × Chars) :=
  match s with
  | [] => none
  | '\n' :: rest => some ([], rest.dropWhile isGap)
  | 'x' :: rest => (readHex 2 rest).map fun (c, r) => ([c], r)
  | 'u' :: rest => (readHex 4 rest).map fun (c, r) => ([c], r)
  | 'U' :: rest => (readHex 8 rest).map fun (c, r) => ([c], r)
  | c :: rest => (escapeOf? c).map fun d => ([d], rest)

/-- The rest of a quoted scalar after its opening quote. -/
def readQuoted (q : Char) : (fuel : Nat) → Chars → Option (Chars × Chars)
  | 0, _ => none
  | fuel + 1, s =>
    match s with
    | [] => none
    | c :: rest =>
      if c = q then
        if q = '\x27' ∧ rest.head? = some q then
          (readQuoted q fuel rest.tail).map fun (body, tail) => (q :: body, tail)
        else some ([], rest)
      else if c = '\\' ∧ q = '\x22' then do
        let (d, rest) ← readEscape rest
        let (body, tail) ← readQuoted q fuel rest
        pure (d ++ body, tail)
      else
        match fold? s with
        | some (gap, rest) => (readQuoted q fuel rest).map fun (body, tail) => (gap ++ body, tail)
        | none => (readQuoted q fuel rest).map fun (body, tail) => (c :: body, tail)

/-- The characters that end or open a collection. -/
def isFlowMark (c : Char) : Bool :=
  c == ',' || c == '[' || c == ']' || c == '\x7b' || c == '\x7d'

/-- Whether a plain scalar may start with a text. -/
def canStartPlain (s : Chars) : Bool :=
  match s with
  | [] => false
  | c :: rest =>
    if c == '-' || c == '?' || c == ':' then rest.head?.any fun d => !isGap d
    else !isFlowMark c && !("#&*!|>'\x22%@`".toList.contains c)

/-- A plain scalar inside brackets, with what follows it. -/
def readFlowPlain : Chars → Chars × Chars
  | [] => ([], [])
  | c :: rest =>
    if isFlowMark c || (c == ':' && rest.head?.all fun d => isGap d || isFlowMark d) then ([], c :: rest)
    else
      let (body, tail) := readFlowPlain rest
      (c :: body, tail)

/-- A folded plain scalar. -/
def foldPlain (s : Chars) : Chars :=
  Text.trimWhile isGap
    (Text.substitute (fun t => if t.head?.any isGap then fold? t else none) s)

/-- The text after leading blanks and line breaks. -/
def skipGap (s : Chars) : Chars := s.dropWhile isGap

mutual

/-- A node inside brackets. -/
def readFlow : (fuel : Nat) → Chars → Option (Yaml × Chars)
  | 0, _ => none
  | fuel + 1, s =>
    match skipGap s with
    | [] => none
    | c :: rest =>
      if c = '[' then (readFlowItems fuel rest).map fun (xs, r) => (.seq xs, r)
      else if c = '\x7b' then (readFlowMembers fuel rest).map fun (ms, r) => (.map ms, r)
      else if c = '\x22' ∨ c = '\x27' then
        (readQuoted c (rest.length + 1) rest).map fun (t, r) => (.scalar false t, r)
      else if canStartPlain (c :: rest) then
        let (body, r) := readFlowPlain (c :: rest)
        some (.scalar true (foldPlain body), r)
      else none

/-- Items up to the closing bracket. A key with a value among them is a mapping of its own. -/
def readFlowItems : (fuel : Nat) → Chars → Option (List Yaml × Chars)
  | 0, _ => none
  | fuel + 1, s =>
    match skipGap s with
    | ']' :: rest => some ([], rest)
    | s => do
      let (x, rest) ← readFlow fuel s
      let (x, rest) ← match skipGap rest with
        | ':' :: after => do
          let (v, r) ← readFlowValue fuel after
          some (Yaml.map [(x, v)], r)
        | r => some (x, r)
      match skipGap rest with
      | ',' :: rest =>
        let (xs, rest) ← readFlowItems fuel rest
        pure (x :: xs, rest)
      | ']' :: rest => pure ([x], rest)
      | _ => none

/-- Members up to the closing brace; a key alone has an empty value. -/
def readFlowMembers : (fuel : Nat) → Chars → Option (List (Yaml × Yaml) × Chars)
  | 0, _ => none
  | fuel + 1, s =>
    match skipGap s with
    | '\x7d' :: rest => some ([], rest)
    | s => do
      let (k, rest) ← readFlow fuel s
      let (v, rest) ← match skipGap rest with
        | ':' :: after => readFlowValue fuel after
        | r => some (Yaml.empty, r)
      match skipGap rest with
      | ',' :: rest =>
        let (ms, rest) ← readFlowMembers fuel rest
        pure ((k, v) :: ms, rest)
      | '\x7d' :: rest => pure ([(k, v)], rest)
      | _ => none

/-- The value after a colon inside brackets, which may be missing. -/
def readFlowValue : (fuel : Nat) → Chars → Option (Yaml × Chars)
  | 0, _ => none
  | fuel + 1, s =>
    match skipGap s with
    | c :: rest =>
      if c = ',' ∨ c = ']' ∨ c = '\x7d' then some (Yaml.empty, c :: rest) else readFlow fuel (c :: rest)
    | [] => none

end

/-- A node that is all of a text. -/
def readInline (s : Chars) : Option Yaml :=
  match s with
  | [] => some Yaml.empty
  | c :: _ =>
    if c = '[' ∨ c = '\x7b' ∨ c = '\x22' ∨ c = '\x27' then
      match readFlow (2 * s.length + 2) s with
      | some (x, rest) => if skipGap rest = [] then some x else none
      | none => none
    else if canStartPlain s then some (.scalar true (foldPlain s))
    else none

end ViewBridge.Yaml
