import ViewBridge.Json.Basic
import ViewBridge.Number.Reading
/-!
# Reading JSON

A strict reader: one document with blanks around it and nothing else. Integers of 64 bits stay integers,
all other numbers become doubles, a number too large for a double is refused, as are nesting beyond 127
levels, raw control characters and halves of surrogate pairs.
-/
namespace ViewBridge.Json

/-- The blanks of JSON. -/
def isSpace (c : Char) : Bool := c == ' ' || c == '\n' || c == '\t' || c == '\r'

/-- The text after leading blanks. -/
def skip (s : Chars) : Chars := s.dropWhile isSpace

/-- Four digits in base 16. -/
def readUnit (s : Chars) : Option (Nat × Chars) :=
  if s.length < 4 then none
  else (Text.readNat? 16 (s.take 4)).map fun n => (n, s.drop 4)

/-- The code point after `\u`, joining the halves of a surrogate pair. -/
def readCodePoint (s : Chars) : Option (Char × Chars) := do
  let (high, s) ← readUnit s
  if 0xD800 ≤ high ∧ high < 0xDC00 then
    let s ← Text.after? "\\u".toList s
    let (low, s) ← readUnit s
    if 0xDC00 ≤ low ∧ low < 0xE000 then
      some (Char.ofNat (0x10000 + (high - 0xD800) * 0x400 + (low - 0xDC00)), s)
    else none
  else if 0xDC00 ≤ high ∧ high < 0xE000 then none
  else some (Char.ofNat high, s)

/-- The character of a one-letter escape. -/
def escapeOf? (c : Char) : Option Char :=
  if c = '\x22' ∨ c = '\\' ∨ c = '/' then some c
  else if c = 'b' then some '\x08'
  else if c = 'f' then some '\x0c'
  else if c = 'n' then some '\n'
  else if c = 'r' then some '\r'
  else if c = 't' then some '\t'
  else none

/-- The rest of a string after its opening quote; `fuel` bounds its length. -/
def readString : (fuel : Nat) → Chars → Option (Chars × Chars)
  | 0, _ => none
  | fuel + 1, s =>
    match s with
    | [] => none
    | c :: rest =>
      if c = '\x22' then some ([], rest)
      else if c = '\\' then
        match rest with
        | 'u' :: rest => do
          let (d, rest) ← readCodePoint rest
          let (body, tail) ← readString fuel rest
          pure (d :: body, tail)
        | e :: rest => do
          let d ← escapeOf? e
          let (body, tail) ← readString fuel rest
          pure (d :: body, tail)
        | [] => none
      else if c.toNat < 32 then none
      else (readString fuel rest).map fun (body, tail) => (c :: body, tail)

/-- An integer as JSON holds it: 64 bits, signed or not; others are doubles. -/
def ofInteger (neg : Bool) (n : Nat) : Option Json :=
  if neg then
    if n = 0 then some (.float (Binary.ofMagnitude true 0))
    else if n ≤ Nat.pow 2 63 then some (.int (-(n : Int)))
    else some (.float (Binary.nearest true n 1))
  else if n < Nat.pow 2 64 then some (.int n)
  else some (.float (Binary.nearest false n 1))

/-- A double, unless it is too large. -/
def ofDouble (x : Float) : Option Json :=
  match Binary.ofFloat x with
  | .finite .. => some (.float x)
  | _ => none

/-- The text of an exponent at the start of a text, with the rest; `none` if it has no digits. -/
def readExponentText (s : Chars) : Option (Chars × Chars) :=
  match s with
  | c :: rest =>
    if c = 'e' ∨ c = 'E' then
      let (sign, rest) := match rest with
        | '+' :: r => (['+'], r)
        | '-' :: r => (['-'], r)
        | r => ([], r)
      let ds := rest.takeWhile Text.isDigit
      if ds = [] then none else some (c :: sign ++ ds, rest.dropWhile Text.isDigit)
    else some ([], s)
  | [] => some ([], [])

/-- A number at the start of a text. -/
def readNumber (s : Chars) : Option (Json × Chars) := do
  let (neg, body) := match s with
    | '-' :: r => (true, r)
    | r => (false, r)
  let whole := body.takeWhile Text.isDigit
  if whole = [] ∨ (whole.head? = some '0' ∧ whole ≠ ['0']) then none
  else
    let rest := body.dropWhile Text.isDigit
    let (fraction, rest) ← match rest with
      | '.' :: r =>
        let ds := r.takeWhile Text.isDigit
        if ds = [] then none else some ('.' :: ds, r.dropWhile Text.isDigit)
      | r => some ([], r)
    let (exponent, rest) ← readExponentText rest
    if fraction = [] ∧ exponent = [] then
      let n ← ofInteger neg (digitsValue whole)
      pure (n, rest)
    else
      let x ← readFloat? ((if neg then ['-'] else []) ++ whole ++ fraction ++ exponent)
      let n ← ofDouble x
      pure (n, rest)

mutual

/-- A document at the start of a text; `levels` more levels of nesting are allowed. -/
def readValue : (fuel levels : Nat) → Chars → Option (Json × Chars)
  | 0, _, _ => none
  | fuel + 1, levels, s =>
    match skip s with
    | [] => none
    | c :: rest =>
      if c = '\x7b' then
        match levels with
        | 0 => none
        | levels + 1 =>
          match skip rest with
          | '\x7d' :: rest => some (.obj [], rest)
          | _ => (readMembers fuel levels rest).map fun (ms, rest) => (.obj ms, rest)
      else if c = '[' then
        match levels with
        | 0 => none
        | levels + 1 =>
          match skip rest with
          | ']' :: rest => some (.arr [], rest)
          | _ => (readItems fuel levels rest).map fun (xs, rest) => (.arr xs, rest)
      else if c = '\x22' then
        (readString (rest.length + 1) rest).map fun (t, rest) => (.str t, rest)
      else
        ((Text.after? "null".toList (c :: rest)).map fun rest => (.null, rest)).or <|
        ((Text.after? "true".toList (c :: rest)).map fun rest => (.bool true, rest)).or <|
        ((Text.after? "false".toList (c :: rest)).map fun rest => (.bool false, rest)).or <|
        readNumber (c :: rest)

/-- The items of an array, at least one, through the closing bracket. -/
def readItems : (fuel levels : Nat) → Chars → Option (List Json × Chars)
  | 0, _, _ => none
  | fuel + 1, levels, s => do
    let (x, rest) ← readValue fuel levels s
    match skip rest with
    | ',' :: rest =>
      let (xs, rest) ← readItems fuel levels rest
      pure (x :: xs, rest)
    | ']' :: rest => pure ([x], rest)
    | _ => none

/-- The members of an object, at least one, through the closing brace. -/
def readMembers : (fuel levels : Nat) → Chars → Option (List (Chars × Json) × Chars)
  | 0, _, _ => none
  | fuel + 1, levels, s => do
    let s ← Text.after? "\x22".toList (skip s)
    let (key, s) ← readString (s.length + 1) s
    let s ← Text.after? ":".toList (skip s)
    let (x, rest) ← readValue fuel levels s
    match skip rest with
    | ',' :: rest =>
      let (ms, rest) ← readMembers fuel levels rest
      pure ((key, x) :: ms, rest)
    | '\x7d' :: rest => pure ([(key, x)], rest)
    | _ => none

end

/-- The document that a text is. -/
def read? (s : Chars) : Option Json :=
  match readValue (2 * s.length + 2) 127 s with
  | some (x, rest) => if skip rest = [] then some x else none
  | none => none

end ViewBridge.Json
