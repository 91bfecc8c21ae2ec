import ViewBridge.Yaml.Basic
/-!
# Logical lines of YAML

The block structure of a document is read off its lines: each has an indentation and a content. A line whose
content opens a bracket or a quote takes further lines with it until all are closed. Comments, blank lines
and blanks at the end are gone; line breaks inside brackets and quotes stay.
-/
namespace ViewBridge.Yaml

/-- A line: the column of its first character, and its text from there. -/
structure Line where
  indent : Nat
  content : Chars
deriving DecidableEq, Repr

/-- Where a scan inside a line stands: open brackets, the open quote, whether a token may start here, and the
character before. -/
structure Scan where
  depth : Nat := 0
  quote : Option Char := none
  fresh : Bool := true
  last : Char := ' '

/-- Blanks and line breaks. -/
def isGap (c : Char) : Bool := isSpace c || c == '\n'

/-- The scan after a character outside quotes that is kept. -/
def Scan.step (st : Scan) (c : Char) (next : Option Char) : Scan :=
  if st.fresh && (c == '\x22' || c == '\x27') then { st with quote := some c, last := c }
  else if (st.fresh || 0 < st.depth) && (c == '[' || c == '\x7b') then
    { st with depth := st.depth + 1, fresh := true, last := c }
  else if 0 < st.depth && (c == ']' || c == '\x7d') then
    { st with depth := st.depth - 1, fresh := false, last := c }
  else
    let fresh :=
      if isGap c then st.fresh || st.last == ':'
      else if c == '-' && st.fresh then next.all isGap
      else if 0 < st.depth && c == ',' then true
      else 0 < st.depth && c == ':' && (st.last == '\x22' || st.last == '\x27')
    { st with fresh, last := c }

/-- The rest of a line's content, and the text after the line; `none` if a quote or a bracket stays open. -/
def readContent : (fuel : Nat) → Scan → Chars → Option (Chars × Chars)
  | 0, _, _ => none
  | fuel + 1, st, s =>
    match s with
    | [] => if st.depth = 0 ∧ st.quote = none then some ([], []) else none
    | c :: rest =>
      match st.quote with
      | some q =>
        if c = '\\' ∧ q = '\x22' then
          match rest with
          | d :: rest => (readContent fuel st rest).map fun (line, tail) => (c :: d :: line, tail)
          | [] => none
        else if c = q then
          match rest with
          | d :: after =>
            if d = q ∧ q = '\x27' then
              (readContent fuel st after).map fun (line, tail) => (c :: d :: line, tail)
            else
              (readContent fuel { st with quote := none, fresh := false, last := c } rest).map
                fun (line, tail) => (c :: line, tail)
          | [] =>
            (readContent fuel { st with quote := none, fresh := false, last := c } []).map
              fun (line, tail) => (c :: line, tail)
        else (readContent fuel st rest).map fun (line, tail) => (c :: line, tail)
      | none =>
        if c = '\n' ∧ st.depth = 0 then some ([], rest)
        else if c = '#' ∧ isGap st.last then readContent fuel st (rest.dropWhile (· != '\n'))
        else
          (readContent fuel (st.step c rest.head?) rest).map fun (line, tail) => (c :: line, tail)

/-- The lines of a text; `none` for a tab in an indentation and for what stays open. -/
def readLines : (fuel : Nat) → Chars → Option (List Line)
  | 0, _ => none
  | fuel + 1, s =>
    if s = [] then some []
    else
      let body := s.dropWhile (· == ' ')
      let blank := body.dropWhile isSpace
      match blank with
      | [] => some []
      | '\n' :: rest => readLines fuel rest
      | '#' :: rest => readLines fuel (rest.dropWhile (· != '\n'))
      | _ =>
        if body.head? = some '\t' then none
        else do
          let (content, rest) ← readContent (body.length + 1) {} body
          let lines ← readLines fuel rest
          pure (⟨s.length - body.length, Text.dropEndWhile isGap content⟩ :: lines)

/-- The lines of a document text. -/
def linesOf? (s : Chars) : Option (List Line) :=
  let s := Text.replace "\r\n".toList ['\n'] s
  readLines (s.length + 1) s

end ViewBridge.Yaml
