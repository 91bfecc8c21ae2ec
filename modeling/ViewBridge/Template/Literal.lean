import ViewBridge.Template.Token
import ViewBridge.Number.Reading
/-!
# Literals of templates

Quoted texts and numbers. A backslash in a text keeps the quote that follows it from closing the text;
escapes that mean nothing are kept as they are written. Numbers may have underscores between their digits, a
base of two, eight or sixteen, or the parts of a double.

Results:
* `unescape_of_no_backslash`: a text without a backslash means itself.
-/
namespace ViewBridge.Template

/-- The character of a one-letter escape. -/
def escapeOf? (c : Char) : Option Char :=
  if c = '\x22' ∨ c = '\x27' ∨ c = '\\' ∨ c = '/' then some c
  else if c = 'b' then some '\x08'
  else if c = 'f' then some '\x0c'
  else if c = 'n' then some '\n'
  else if c = 'r' then some '\r'
  else if c = 't' then some '\t'
  else none

/-- The 16-bit unit that four characters write in base 16; the first may be a plus sign. -/
def unitOf? (s : Chars) : Option Nat :=
  if s.length = 4 then
    Text.readNat? 16 (match s with
      | '+' :: rest => rest
      | s => s)
  else none

/-- Half of a character outside the basic plane. -/
def isSurrogate (n : Nat) : Bool := 0xD800 ≤ n && n < 0xE000

/-- What a quoted text means. A first half of a surrogate pair is held until the second one follows at
once. -/
def unescapeFrom : (half : Option Nat) → Chars → Option Chars
  | half, [] => if half.isSome then none else some []
  | half, '\\' :: 'u' :: a :: b :: c :: d :: rest =>
    match unitOf? [a, b, c, d] with
    | none => none
    | some n =>
      match half, isSurrogate n with
      | none, false => (unescapeFrom none rest).map (Char.ofNat n :: ·)
      | none, true => unescapeFrom (some n) rest
      | some _, false => none
      | some high, true =>
        if high < 0xDC00 ∧ 0xDC00 ≤ n then
          (unescapeFrom none rest).map
            (Char.ofNat (0x10000 + (high - 0xD800) * 0x400 + (n - 0xDC00)) :: ·)
        else none
  | half, '\\' :: c :: rest =>
    if half.isSome ∨ c = 'u' then none
    else
      match escapeOf? c with
      | some d => (unescapeFrom none rest).map (d :: ·)
      | none => (unescapeFrom none rest).map fun s => '\\' :: c :: s
  | half, c :: rest =>
    if half.isSome ∨ c = '\\' then none else (unescapeFrom none rest).map (c :: ·)

/-- What a quoted text means; none if an escape in it is broken. -/
def unescape (s : Chars) : Option Chars := unescapeFrom none s

theorem unescape_of_no_backslash {s : Chars} (h : '\\' ∉ s) : unescape s = some s := by
  unfold unescape
  induction s with
  | nil => rfl
  | cons c cs ih =>
    have hc : c ≠ '\\' := fun hc => h (by simp [hc])
    have hcs : '\\' ∉ cs := fun hcs => h (by simp [hcs])
    rw [unescapeFrom]
    · simp [hc, ih hcs]
    all_goals (intros; exact absurd ‹c = '\\'› hc)

/-- The body of a quoted text and what follows its closing quote. -/
def readQuoted (quote : Char) : Chars → Option (Chars × Chars)
  | [] => none
  | '\\' :: c :: rest => (readQuoted quote rest).map fun (body, tail) => ('\\' :: c :: body, tail)
  | c :: rest =>
    if c = quote then some ([], rest)
    else (readQuoted quote rest).map fun (body, tail) => (c :: body, tail)

/-- The token of a quoted text after its opening quote, with what follows it. -/
def readText (quote : Char) (s : Chars) : Token × Chars :=
  match readQuoted quote s with
  | none => (.failure .syntaxError, [])
  | some (body, rest) =>
    match unescape body with
    | some t => (.text t, rest)
    | none => (.failure .badEscape, [])

/-- How far the reading of a number is. -/
inductive NumberPart where
  | whole
  | based
  | fraction
  | exponent
  | exponentDigits
deriving DecidableEq, Repr

/-- The part that a character belongs to after another part, if the number goes on with it. -/
def NumberPart.next? (base : Nat) (part : NumberPart) (c : Char) : Option NumberPart :=
  if c = '_' then some part
  else if c = '.' ∧ part = .whole then some .fraction
  else if (c = 'e' ∨ c = 'E') ∧ (part = .whole ∨ part = .fraction) then some .exponent
  else if (c = '+' ∨ c = '-') ∧ part = .exponent then some .exponentDigits
  else if Text.isDigit c then some (if part = .exponent then .exponentDigits else part)
  else if base = 16 ∧ part = .based ∧ (Text.hexValue? c).isSome then some part
  else none

/-- The characters of a number, the part it ends in, and what follows. -/
def readNumberFrom (base : Nat) : NumberPart → Chars → Chars × NumberPart × Chars
  | part, [] => ([], part, [])
  | part, c :: rest =>
    match part.next? base c with
    | none => ([], part, c :: rest)
    | some part =>
      let (digits, last, tail) := readNumberFrom base part rest
      (c :: digits, last, tail)

/-- The base that the first two characters of a number announce. -/
def baseOf (a b : Char) : Nat :=
  if a ≠ '0' then 10
  else if b = 'b' ∨ b = 'B' then 2
  else if b = 'o' ∨ b = 'O' then 8
  else if b = 'x' ∨ b = 'X' then 16
  else 10

/-- The token of a number, with what follows it. -/
def readNumber (s : Chars) : Token × Chars :=
  let base := match s with
    | a :: b :: _ => baseOf a b
    | _ => 10
  let (written, last, rest) :=
    if base = 10 then readNumberFrom 10 .whole s else readNumberFrom base .based (s.drop 2)
  let digits := written.filter (· != '_')
  let token : Option Token :=
    if written.getLast? = some '_' then none
    else if last = .whole ∨ last = .based then
      (Text.readNat? base digits).bind fun n => if n < Nat.pow 2 128 then some (.int n) else none
    else (readFloat? digits).map .float
  match token with
  | some t => (t, rest)
  | none => (.failure .syntaxError, [])

end ViewBridge.Template
