import ViewBridge.Template.Literal
/-!
# Scanning a template

Text runs up to the next tag; a dash inside a tag's border removes the blanks beside it. A comment ends at
the first end mark, a raw block at the first end tag, and nothing inside them is looked at. Inside brackets
the end of a tag is not recognised, so that a map may close right before it.

Results:
* `splitAtTag_of_no_brace`: a text without an opening brace is all text.
-/
namespace ViewBridge.Template

/-- What starts at the next tag border in a text. -/
inductive Opening where
  | tag (kind : TagKind)
  | comment
deriving DecidableEq, Repr

/-- What a tag border opens. -/
def openingOf? (a b : Char) : Option Opening :=
  if a ≠ '\x7b' then none
  else if b = '\x7b' then some (.tag .output)
  else if b = '%' then some (.tag .statement)
  else if b = '#' then some .comment
  else none

/-- The text before the first tag border, what it opens, and what follows it. -/
def splitAtTag : Chars → Chars × Option (Opening × Chars)
  | a :: b :: rest =>
    match openingOf? a b with
    | some o => ([], some (o, rest))
    | none =>
      let (before, found) := splitAtTag (b :: rest)
      (a :: before, found)
  | s => (s, none)

theorem splitAtTag_of_no_brace {s : Chars} (h : '\x7b' ∉ s) : splitAtTag s = (s, none) := by
  induction s with
  | nil => rfl
  | cons a s ih =>
    cases s with
    | nil => rfl
    | cons b rest =>
      have ha : a ≠ '\x7b' := fun ha => h (by simp [ha])
      have hs : '\x7b' ∉ b :: rest := fun hs => h (List.mem_cons_of_mem _ hs)
      simp [splitAtTag, openingOf?, ha, ih hs]

/-- The blanks inside a tag. -/
def isTagBlank (c : Char) : Bool := c == ' ' || c == '\t' || c == '\n' || c == '\r' || c == '\x0c'

/-- The sign at a border that keeps or removes blanks, and what follows it. -/
def readSign : Chars → Option Char × Chars
  | c :: rest => if c = '-' ∨ c = '+' then (some c, rest) else (none, c :: rest)
  | [] => (none, [])

/-- A tag that holds one word alone: the sign at its end and what follows it. -/
def readWordTag (word s : Chars) : Option (Option Char × Chars) := do
  let s ← Text.after? word (s.dropWhile isTagBlank)
  let (sign, s) := readSign (s.dropWhile isTagBlank)
  let rest ← Text.after? TagKind.statement.closing s
  some (sign, rest)

/-- A raw block's body up to its end tag, the signs at the borders of that tag, and what follows it. -/
def readRaw : Chars → Option (Chars × Option Char × Option Char × Chars)
  | '\x7b' :: '%' :: rest =>
    let (before, inside) := readSign rest
    match readWordTag "endraw".toList inside with
    | some (after, rest) => some ([], before, after, rest)
    | none => (readRaw ('%' :: rest)).map fun (body, tail) => ('\x7b' :: body, tail)
  | c :: rest => (readRaw rest).map fun (body, tail) => (c :: body, tail)
  | [] => none

/-- A text without the blanks at the ends where a dash asks for it. -/
def trimmedBySigns (atStart atEnd : Option Char) (s : Chars) : Chars :=
  let s := if atStart = some '-' then s.dropWhile Text.isBlank else s
  if atEnd = some '-' then Text.dropEndWhile Text.isBlank s else s

/-- The number of lines that a text ends. -/
def lineBreaks (s : Chars) : Nat := s.count '\n'

/-- The text token of a piece of text; there is none for an empty one. -/
def dataTokens (line : Nat) (s : Chars) : List Lexeme := if s = [] then [] else [⟨.data s, line⟩]

/-- The end of a tag of a kind, after an optional sign. -/
def readStop (kind : TagKind) (s : Chars) : Option (Option Char × Chars) :=
  let (sign, s) := readSign s
  (Text.after? kind.closing s).map fun rest => (sign, rest)

/-- One token inside a tag, with what follows it. -/
def readToken : Chars → Token × Chars
  | [] => (.failure .syntaxError, [])
  | c :: rest =>
    let pair : Option (Mark × Chars) := match rest with
      | d :: rest => (Mark.ofPair? c d).map fun m => (m, rest)
      | [] => none
    match pair with
    | some (m, rest) => (.mark m, rest)
    | none =>
      match Mark.ofChar? c with
      | some m => (.mark m, rest)
      | none =>
        if c = '\x27' ∨ c = '\x22' then readText c rest
        else if Text.isDigit c then readNumber (c :: rest)
        else if Text.isNameStart c then
          (.name (c :: rest.takeWhile Text.isNameChar), rest.dropWhile Text.isNameChar)
        else (.failure .syntaxError, [])

/-- Whether reading stops at a token. -/
def Token.isFailure : Token → Bool
  | .failure _ => true
  | _ => false

/-- The change in nesting that a token makes. -/
def Token.nesting : Token → Int
  | .mark m => m.nesting
  | _ => 0

mutual

/-- The tokens of text outside tags; `trim` removes its leading blanks. -/
def scanText : (fuel : Nat) → (trim : Bool) → (line : Nat) → Chars → List Lexeme
  | 0, _, line, _ => [⟨.failure .syntaxError, line⟩]
  | fuel + 1, trim, line, s =>
    let lead := if trim then s.takeWhile Text.isBlank else []
    let line := line + lineBreaks lead
    let (before, found) := splitAtTag (s.drop lead.length)
    let here := line + lineBreaks before
    match found with
    | none => dataTokens line before
    | some (opening, rest) =>
      let (sign, inside) := readSign rest
      dataTokens line (trimmedBySigns none sign before) ++
        match opening with
        | .comment =>
          match Text.cut? ['#', '\x7d'] inside with
          | none => [⟨.failure .syntaxError, here⟩]
          | some (body, rest) =>
            scanText fuel ((sign.toList ++ body).getLast? == some '-') (here + lineBreaks body) rest
        | .tag .statement =>
          match readWordTag "raw".toList inside with
          | some (atStart, rest) =>
            let opened := here + (lineBreaks inside - lineBreaks rest)
            match readRaw rest with
            | none => [⟨.failure .syntaxError, opened⟩]
            | some (body, atEnd, after, tail) =>
              ⟨.data (trimmedBySigns atStart atEnd body), opened⟩ ::
                scanText fuel (after == some '-') (opened + (lineBreaks rest - lineBreaks tail)) tail
          | none => ⟨.start .statement, here⟩ :: scanTag fuel .statement 0 here inside
        | .tag .output => ⟨.start .output, here⟩ :: scanTag fuel .output 0 here inside

/-- The tokens inside a tag and after it; `depth` counts the open brackets. -/
def scanTag : (fuel : Nat) → TagKind → (depth : Int) → (line : Nat) → Chars → List Lexeme
  | 0, _, _, line, _ => [⟨.failure .syntaxError, line⟩]
  | fuel + 1, kind, depth, line, s =>
    let line := line + lineBreaks (s.takeWhile isTagBlank)
    match s.dropWhile isTagBlank with
    | [] => []
    | c :: rest =>
      match if depth = 0 then readStop kind (c :: rest) else none with
      | some (sign, rest) => ⟨.stop kind, line⟩ :: scanText fuel (sign == some '-') line rest
      | none =>
        let (token, tail) := readToken (c :: rest)
        if token.isFailure then [⟨token, line⟩]
        else
          ⟨token, line⟩ ::
            scanTag fuel kind (depth + token.nesting)
              (line + (lineBreaks (c :: rest) - lineBreaks tail)) tail

end

/-- A template's source without the line break at its end. -/
def withoutLastBreak (s : Chars) : Chars :=
  let s := (Text.before? ['\n'] s).getD s
  (Text.before? ['\r'] s).getD s

/-- The tokens of a template. -/
def tokens (source : Chars) : List Lexeme :=
  let s := withoutLastBreak source
  scanText (2 * s.length + 2) false 1 s

end ViewBridge.Template
