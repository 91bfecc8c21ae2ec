import ViewBridge.Text.Basic
import ViewBridge.Text.Class
/-!
# Directives

The tags of the legacy template language, each with a reader that recognises it at the start of a text and
answers what the tag holds and the text after it. A reader sees one tag; which readers run, in which order
and on which text, is a matter of the stages.

Results:
* `readBlock_length`, `readArgument_length`: a reader uses up some text.
-/
namespace ViewBridge.Directive

/-- A block from an opening to the nearest closing marker: its body, which may have several lines. -/
def readBlock (opening closing : Chars) (s : Chars) : Option (Chars × Chars) :=
  (Text.after? opening s).bind (Text.cut? closing)

/-- A tag with one double-quoted argument: the argument, which holds no double quote. -/
def readArgument (opening : Chars) (s : Chars) : Option (Chars × Chars) := do
  let s ← Text.after? opening s
  let rest ← Text.after? "\x22\x7d".toList (s.dropWhile (· != '\x22'))
  pure (s.takeWhile (· != '\x22'), rest)

theorem readBlock_length {opening closing s body rest : Chars}
    (h : readBlock opening closing s = some (body, rest)) :
    opening.length + closing.length + rest.length ≤ s.length := by
  simp only [readBlock, Option.bind_eq_some_iff] at h
  obtain ⟨t, ht, hc⟩ := h
  have := Text.cut?_rest_length hc
  rw [Text.after?_eq_some_iff.1 ht, List.length_append]
  omega

theorem readArgument_length {opening s body rest : Chars}
    (h : readArgument opening s = some (body, rest)) :
    opening.length + 2 + rest.length ≤ s.length := by
  simp only [readArgument, Option.pure_def, Option.bind_eq_bind, Option.bind_eq_some_iff] at h
  obtain ⟨t, ht, r, hr, hbr⟩ := h
  simp only [Option.some.injEq, Prod.mk.injEq] at hbr
  obtain ⟨-, rfl⟩ := hbr
  have h1 := congrArg List.length (Text.after?_eq_some_iff.1 ht)
  have h2 := congrArg List.length (Text.after?_eq_some_iff.1 hr)
  have h3 := (List.dropWhile_sublist (fun c => c != '\x22') (l := t)).length_le
  simp only [List.length_append] at h1 h2
  have h4 : "\x22\x7d".toList.length = 2 := rfl
  omega

/-- The body of an argument written with entities: not empty, on one line, up to the nearest closing. -/
def readEntityBody : Chars → Option (Chars × Chars)
  | [] => none
  | c :: rest =>
    if c = '\n' then none
    else (Text.cut? "&quot;\x7d".toList rest).bind fun (body, tail) =>
      if body.contains '\n' then none else some (c :: body, tail)

/-- A tag whose argument stands between entities instead of quotes: its name, the argument. -/
def readEntityTag (s : Chars) : Option ((Chars × Chars) × Chars) := do
  let s ← Text.after? "\x7b".toList s
  let lower := fun c : Char => decide ('a' ≤ c ∧ c ≤ 'z')
  let name := s.takeWhile lower
  if name = [] then none
  else
    let s ← Text.after? "=&quot;".toList (s.dropWhile lower)
    let (body, rest) ← readEntityBody s
    pure ((name, body), rest)

/-- An include: the file name, not empty. -/
def readInclude (s : Chars) : Option (Chars × Chars) :=
  (readArgument "\x7binclude=\x22".toList s).filter fun (file, _) => file != []

/-- An opening condition, in either of its spellings. -/
def readIf (s : Chars) : Option (Chars × Chars) :=
  (readArgument "\x7bif=\x22".toList s).or (readArgument "\x7bif condition=\x22".toList s)

/-- A further condition. -/
def readElseif (s : Chars) : Option (Chars × Chars) := readArgument "\x7belseif=\x22".toList s

/-- A function tag: its body, not empty. -/
def readFunction (s : Chars) : Option (Chars × Chars) :=
  (readArgument "\x7bfunction=\x22".toList s).filter fun (body, _) => body != []

/-- A variable tag: its body, which starts with a sigil and a name and holds no brace. -/
def readVariable (s : Chars) : Option (Chars × Chars) := do
  let s ← Text.after? "\x7b".toList s
  let brace := fun c : Char => c == '\x7b' || c == '\x7d'
  let body := s.takeWhile fun c => !brace c
  let rest ← Text.after? "\x7d".toList (s.dropWhile fun c => !brace c)
  match body with
  | '$' :: c :: _ => if Text.isNameStart c then some (body, rest) else none
  | _ => none

/-- A constant tag: the name; its closing hash may be missing. -/
def readConstant (s : Chars) : Option (Chars × Chars) := do
  let s ← Text.after? "\x7b#".toList s
  let name := s.takeWhile Text.isNameChar
  let tail := s.dropWhile Text.isNameChar
  let rest ← (Text.after? "#\x7d".toList tail).or (Text.after? "\x7d".toList tail)
  if name.head?.any Text.isNameStart then some (name, rest) else none

end ViewBridge.Directive
