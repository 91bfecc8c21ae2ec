import ViewBridge.Directive.Basic
/-!
# Loop directives

An opening loop tag names a collection and may bind a key or a key and a value; a collection text of the
form `$i=0;$i<$n;$i++` is a counting loop instead.
-/
namespace ViewBridge.Directive

/-- What an opening loop tag says: the collection text and the texts of the names it binds. -/
structure LoopHeader where
  collection : Chars
  key : Option Chars := none
  value : Option Chars := none
deriving DecidableEq, Repr

/-- A loop tag. -/
inductive LoopMark where
  | opening (header : LoopHeader)
  | closing
deriving DecidableEq, Repr

/-- The bindings between ` as ` and the closing brace, all on one line: a first name and, after an arrow, a
second one. -/
def readBindings (s : Chars) : Option ((Chars × Option Chars) × Chars) := do
  let s ← Text.after? " as ".toList s
  let (inner, rest) ← Text.cut? "\x7d".toList s
  if inner.contains '\n' then none
  else
    match inner with
    | '$' :: more =>
      match Text.cut? " => $".toList more with
      | none => some ((inner, none), rest)
      | some (key, value) => some (('$' :: key, some ('$' :: value)), rest)
    | _ => none

/-- A loop tag at the start of a text. -/
def readLoop (s : Chars) : Option (LoopMark × Chars) :=
  match Text.after? "\x7bloop=\x22".toList s with
  | some s =>
    let collection := s.takeWhile (· != '\x22')
    match Text.after? "\x22".toList (s.dropWhile (· != '\x22')) with
    | none => none
    | some s =>
      match readBindings s with
      | some ((key, value), rest) => some (.opening ⟨collection, some key, value⟩, rest)
      | none =>
        (Text.after? "\x7d".toList s).map fun rest => (.opening ⟨collection, none, none⟩, rest)
  | none => (Text.after? "\x7b/loop\x7d".toList s).map fun rest => (.closing, rest)

/-- A counting loop: the variable, its first value, the text of the last one, and whether that is reached. -/
structure CountingLoop where
  var : Chars
  first : Chars
  last : Chars
  inclusive : Bool
deriving DecidableEq, Repr

/-- A sigil, a word and the blanks after it. -/
def readCounter (s : Chars) : Option (Chars × Chars) := do
  let s ← Text.after? "$".toList s
  let word := s.takeWhile Text.isWordChar
  if word = [] then none else some (word, (s.dropWhile Text.isWordChar).dropWhile Text.isBlank)

/-- The bound in the middle part of a counting header: trimmed, but never empty. -/
def readBound (part : Chars) : Option Chars :=
  match part.dropWhile Text.isBlank with
  | [] => part.getLast?.map ([·])
  | s => some (Text.dropEndWhile Text.isBlank s)

/-- The comparison and the bound: a bound that would be empty after `<=` starts with the equals sign. -/
def readComparison (part : Chars) : Option (Bool × Chars) :=
  match Text.after? "<=".toList part with
  | some after =>
    match readBound after with
    | some bound => some (true, bound)
    | none => some (false, "=".toList)
  | none => do
    let after ← Text.after? "<".toList part
    let bound ← readBound after
    pure (false, bound)

/-- A counting header, all of it; the three parts must name one variable. -/
def readCounting (s : Chars) : Option CountingLoop := do
  let (var, s) ← readCounter s
  let s ← Text.after? "=".toList s
  let s := s.dropWhile Text.isBlank
  let first := s.takeWhile Text.isAnyDigit
  if first = [] then none
  else
    let s ← Text.after? ";".toList ((s.dropWhile Text.isAnyDigit).dropWhile Text.isBlank)
    let (compared, s) ← readCounter (s.dropWhile Text.isBlank)
    let (inclusive, last) ← readComparison (s.takeWhile (· != ';'))
    let s ← Text.after? ";".toList (s.dropWhile (· != ';'))
    let s ← Text.after? "$".toList (s.dropWhile Text.isBlank)
    let stepped := s.takeWhile Text.isWordChar
    if s.dropWhile Text.isWordChar = "++".toList ∧ var = compared ∧ var = stepped then
      some ⟨var, first, last, inclusive⟩
    else none

/-- The name that a binding text gives, without sigils and outer blanks. -/
def bindingName (s : Chars) : Chars :=
  Text.trimWhile Text.isBlank (s.filter (· != '$'))

end ViewBridge.Directive
