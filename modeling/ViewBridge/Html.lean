import ViewBridge.Text.Substitution
import ViewBridge.Text.Class
import ViewBridge.Text.Case
/-!
# HTML text

What the helpers of templates do with markup: escape the five special characters, put a break element before
every line break, and remove tags, all of them or all but those an allow-list names.

Results:
* `escape_append`: escaping works character by character.
* `readMarkup_suffix`: what is read as markup and what follows it are the text that was read.
-/
namespace ViewBridge.Html

/-- A character as an entity if it is special. -/
def entity (c : Char) : Chars :=
  if c = '&' then "&amp;".toList
  else if c = '<' then "&lt;".toList
  else if c = '>' then "&gt;".toList
  else if c = '\x22' then "&quot;".toList
  else if c = '\x27' then "&#039;".toList
  else [c]

/-- A text whose special characters are entities. -/
def escape (s : Chars) : Chars := s.flatMap entity

theorem escape_append (s t : Chars) : escape (s ++ t) = escape s ++ escape t := by
  simp [escape]

/-- A break element before every line break. -/
def breakLines : Chars → Chars
  | [] => []
  | '\r' :: '\n' :: rest => "<br />\r\n".toList ++ breakLines rest
  | '\n' :: rest => "<br />\n".toList ++ breakLines rest
  | c :: rest => c :: breakLines rest

/-- A comment or a tag at the start of a text, with what follows it. A comment without an end can still be
read as a tag. -/
def readMarkup (s : Chars) : Option (Chars × Chars) :=
  let comment := do
    let body ← Text.after? "<!--".toList s
    let (inside, rest) ← Text.cut? "-->".toList body
    some ("<!--".toList ++ inside ++ "-->".toList, rest)
  let tag := do
    let body ← Text.after? ['<'] s
    let (inside, rest) ← Text.cut? ['>'] body
    some ('<' :: inside ++ ['>'], rest)
  comment.or tag

theorem readMarkup_suffix {s mark rest : Chars} (h : readMarkup s = some (mark, rest)) :
    s = mark ++ rest := by
  unfold readMarkup at h
  rcases Option.or_eq_some_iff.1 h with h | ⟨-, h⟩
  · simp only [Option.bind_eq_bind, Option.bind_eq_some_iff] at h
    obtain ⟨body, hb, ⟨inside, r⟩, hc, h⟩ := h
    simp only [Option.some.injEq, Prod.mk.injEq] at h
    obtain ⟨rfl, rfl⟩ := h
    rw [Text.after?_eq_some_iff.1 hb, Text.cut?_eq_some hc]
    simp [List.append_assoc]
  · simp only [Option.bind_eq_bind, Option.bind_eq_some_iff] at h
    obtain ⟨body, hb, ⟨inside, r⟩, hc, h⟩ := h
    simp only [Option.some.injEq, Prod.mk.injEq] at h
    obtain ⟨rfl, rfl⟩ := h
    rw [Text.after?_eq_some_iff.1 hb, Text.cut?_eq_some hc]
    simp

/-- A text without its comments and tags. -/
def stripTags (s : Chars) : Chars :=
  Text.substitute (fun t => (readMarkup t).map fun (_, rest) => ([], rest)) s

/-- The name of a tag that opens or closes at the start of a text, in lower case, with what follows it. -/
def readTagName (s : Chars) : Option (Chars × Chars) := do
  let s ← Text.after? ['<'] s
  let s := s.dropWhile Text.isBlank
  let s := ((Text.after? ['/'] s).getD s).dropWhile Text.isBlank
  match s with
  | [] => none
  | c :: rest =>
    if Text.isLetter c then
      let isMore c := Text.isLetter c || Text.isDigit c
      some (Text.asciiLower (c :: rest.takeWhile isMore), rest.dropWhile isMore)
    else none

/-- The names of all tags in a text, from left to right. -/
def tagNames (s : Chars) : List Chars :=
  let add names t := (readTagName t).map fun (name, rest) => ([], names ++ [name], rest)
  (Text.substituteFrom add [] s).2

/-- A text without its comments and tags, except those in which the first tag name is one that the allow-list
names; a list that names none allows none. -/
def stripTagsAllowing (s allowed : Chars) : Chars :=
  let names := tagNames allowed
  if names = [] then stripTags s
  else
    Text.substitute (fun t => (readMarkup t).map fun (mark, rest) =>
      (if (tagNames mark).head?.any names.contains then mark else [], rest)) s

end ViewBridge.Html
