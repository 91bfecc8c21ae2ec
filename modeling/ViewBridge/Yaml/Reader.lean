import ViewBridge.Yaml.Inline
/-!
# Reading YAML

A text is one document of block mappings, block sequences, bracketed collections and scalars, with comments.
Anchors, tags, block scalars and several documents in one text are refused.
-/
namespace ViewBridge.Yaml

/-- Whether a line is an entry of a sequence. -/
def isEntry (content : Chars) : Bool :=
  match content with
  | '-' :: rest => rest.head?.all isGap
  | _ => false

/-- A plain key: the text up to a colon that a blank or the end follows. -/
def cutPlainKey : Chars → Option (Chars × Chars)
  | [] => none
  | c :: rest =>
    if c = ':' ∧ rest.head?.all isGap then some ([], rest)
    else (cutPlainKey rest).map fun (key, value) => (c :: key, value)

/-- The key and the value's text of a line that is a member of a mapping. -/
def readKey (content : Chars) : Option (Yaml × Chars) :=
  match content with
  | [] => none
  | c :: rest =>
    if c = '\x22' ∨ c = '\x27' then do
      let (key, tail) ← readQuoted c (rest.length + 1) rest
      match skipGap tail with
      | ':' :: value =>
        if value.head?.all isGap then some (.scalar false key, skipGap value) else none
      | _ => none
    else if canStartPlain content then
      (cutPlainKey content).map fun (key, value) =>
        (.scalar true (Text.dropEndWhile isGap key), skipGap value)
    else none

/-- The scalar or bracketed collection that starts with a text and goes on in lines indented deeper than
`indent`; only a plain scalar goes on. -/
def readText (indent : Option Nat) (first : Chars) (rest : List Line) : Option (Yaml × List Line) :=
  let more := rest.takeWhile fun l => indent.all (· < l.indent)
  if more = [] then (readInline first).map fun x => (x, rest)
  else if canStartPlain first ∧ more.all fun l => (readKey l.content).isNone then
    (readInline (Text.join ['\n'] (first :: more.map Line.content))).map fun x =>
      (x, rest.drop more.length)
  else none

mutual

/-- The node that starts at the first line, inside a node indented by `outer`. -/
def readNode : (fuel : Nat) → (outer : Option Nat) → List Line → Option (Yaml × List Line)
  | 0, _, _ => none
  | _ + 1, _, [] => none
  | fuel + 1, outer, line :: rest =>
    if isEntry line.content then
      (readEntries fuel line.indent (line :: rest)).map fun (xs, r) => (.seq xs, r)
    else if (readKey line.content).isSome then
      (readMembers fuel line.indent (line :: rest)).map fun (ms, r) => (.map ms, r)
    else readText outer line.content rest

/-- The entries of a sequence at an indentation. -/
def readEntries : (fuel : Nat) → (indent : Nat) → List Line → Option (List Yaml × List Line)
  | 0, _, _ => none
  | _ + 1, _, [] => some ([], [])
  | fuel + 1, indent, line :: rest =>
    if line.indent < indent then some ([], line :: rest)
    else if line.indent ≠ indent then none
    else if !isEntry line.content then some ([], line :: rest)
    else do
      let body := skipGap line.content.tail
      let (x, rest) ←
        if body = [] then readNested fuel indent rest
        else readNode fuel (some indent) (⟨indent + (line.content.length - body.length), body⟩ :: rest)
      let (xs, rest) ← readEntries fuel indent rest
      pure (x :: xs, rest)

/-- The members of a mapping at an indentation. -/
def readMembers : (fuel : Nat) → (indent : Nat) → List Line → Option (List (Yaml × Yaml) × List Line)
  | 0, _, _ => none
  | _ + 1, _, [] => some ([], [])
  | fuel + 1, indent, line :: rest =>
    if line.indent < indent then some ([], line :: rest)
    else if line.indent ≠ indent ∨ isEntry line.content then none
    else do
      let (key, value) ← readKey line.content
      let (x, rest) ←
        if value = [] then
          match rest with
          | next :: _ =>
            if next.indent = indent ∧ isEntry next.content then
              (readEntries fuel indent rest).map fun (xs, r) => (Yaml.seq xs, r)
            else readNested fuel indent rest
          | [] => some (Yaml.empty, [])
        else if isEntry value ∨ (readKey value).isSome then none
        else readText (some indent) value rest
      let (ms, rest) ← readMembers fuel indent rest
      pure ((key, x) :: ms, rest)

/-- The node on the lines indented deeper than `indent`; there may be none. -/
def readNested : (fuel : Nat) → (indent : Nat) → List Line → Option (Yaml × List Line)
  | 0, _, _ => none
  | _ + 1, _, [] => some (Yaml.empty, [])
  | fuel + 1, indent, line :: rest =>
    if indent < line.indent then readNode fuel (some indent) (line :: rest)
    else some (Yaml.empty, line :: rest)

end

/-- Whether a line marks the start of a document. -/
def isStart (l : Line) : Bool := l.indent == 0 && l.content == "---".toList

/-- Whether a line marks the end of a document. -/
def isEnd (l : Line) : Bool := l.indent == 0 && l.content == "...".toList

/-- The lines of the only document: marks may stand around them, not between them. -/
def onlyDocument (lines : List Line) : Option (List Line) :=
  let body := match lines with
    | l :: rest => if isStart l then rest else l :: rest
    | [] => []
  let inside := body.takeWhile fun l => !isEnd l
  if (body.drop inside.length).all isEnd ∧ inside.all fun l => !isStart l then some inside else none

/-- The document that a text is. -/
def read? (s : Chars) : Option Yaml := do
  let lines ← linesOf? s
  let lines ← onlyDocument lines
  if lines = [] then some Yaml.empty
  else
    match readNode (8 * s.length + 8) none lines with
    | some (x, []) => some x
    | _ => none

end ViewBridge.Yaml
