import ViewBridge.Text.Substitution
import ViewBridge.Text.Case
/-!
# Legacy expressions

An expression inside a directive loses its sigils and takes the operators of the target dialects. Seven
rules run one after the other; the rules for bracket keys and for negation look at the text outside string
literals only, the others at all of it.

Results:
* `readLiteral_append`: a literal and what follows it are the text that was read.
* `mapUnquoted_eq_self`: without quotes a rule for unquoted text applies to all of the text.
-/
namespace ViewBridge.Expression

/-- The two quotes. -/
def isQuote (c : Char) : Bool := c == '\x27' || c == '\x22'

/-- The rest of a literal after its opening quote `q`, through the closing quote, and what follows it. A
backslash takes the next character with it; an unterminated literal runs to the end. -/
def readLiteral (q : Char) : Chars → Chars × Chars
  | [] => ([], [])
  | [c] => ([c], [])
  | c :: d :: rest =>
    if c = '\\' then
      let (body, tail) := readLiteral q rest
      (c :: d :: body, tail)
    else if c = q then ([c], d :: rest)
    else
      let (body, tail) := readLiteral q (d :: rest)
      (c :: body, tail)

theorem readLiteral_append (q : Char) (s : Chars) :
    (readLiteral q s).1 ++ (readLiteral q s).2 = s := by
  fun_induction readLiteral q s <;> simp_all

theorem readLiteral_length (q : Char) (s : Chars) : (readLiteral q s).2.length ≤ s.length := by
  have := congrArg List.length (readLiteral_append q s)
  simp only [List.length_append] at this
  omega

/-- Apply a rule to the parts of an expression outside its literals. -/
def mapUnquoted (rule : Chars → Chars) (s : Chars) : Chars :=
  let plain := s.takeWhile fun c => !isQuote c
  match _h : s.dropWhile fun c => !isQuote c with
  | [] => rule plain
  | q :: rest => rule plain ++ q :: (readLiteral q rest).1 ++ mapUnquoted rule (readLiteral q rest).2
termination_by s.length
decreasing_by
  have h1 := readLiteral_length q rest
  have h2 := congrArg List.length _h
  have h3 := (List.dropWhile_sublist (fun c => !isQuote c) (l := s)).length_le
  simp only [List.length_cons] at h2
  omega

theorem mapUnquoted_eq_self {rule : Chars → Chars} {s : Chars} (h : ∀ c ∈ s, isQuote c = false) :
    mapUnquoted rule s = rule s := by
  have hd : s.dropWhile (fun c => !isQuote c) = [] :=
    Text.dropWhile_eq_nil fun c hc => by simp [h c hc]
  have ht : s.takeWhile (fun c => !isQuote c) = s :=
    Text.takeWhile_eq_self fun c hc => by simp [h c hc]
  rw [mapUnquoted]
  split
  · rw [ht]
  · simp_all

/-- A bare name in brackets is a key. -/
def readBareKey (s : Chars) : Option (Chars × Chars) :=
  match s with
  | '[' :: c :: rest =>
    if Text.isNameStart c then
      match rest.dropWhile Text.isNameChar with
      | ']' :: tail =>
        some ("['".toList ++ c :: rest.takeWhile Text.isNameChar ++ "']".toList, tail)
      | _ => none
    else none
  | _ => none

/-- Bare names in brackets become quoted keys, outside literals. -/
def quoteKeys : Chars → Chars := mapUnquoted (Text.substitute readBareKey)

/-- A sigil before a name is dropped. -/
def dropSigils : Chars → Chars
  | [] => []
  | c :: rest =>
    if c = '$' ∧ rest.head?.any Text.isNameStart then dropSigils rest else c :: dropSigils rest

/-- Member arrows become dots. -/
def dotArrows : Chars → Chars := Text.replace "->".toList ".".toList

/-- A dot between a quote and a name joins text. -/
def readQuoteDot (s : Chars) : Option (Chars × Chars) :=
  match s with
  | q :: '.' :: c :: rest =>
    if isQuote q ∧ Text.isNameStart c then some (q :: " ~ ".toList ++ [c], rest) else none
  | _ => none

/-- A dot between a name, a number or a closing parenthesis and a quote joins text. -/
def readDotQuote (s : Chars) : Option (Chars × Chars) :=
  match s with
  | c :: '.' :: q :: rest =>
    if isQuote q ∧ (Text.isNameChar c ∨ c = ')') then some (c :: " ~ ".toList ++ [q], rest) else none
  | _ => none

/-- Dots that join text become tildes: those between spaces and those that touch a quote. -/
def tildeJoins (s : Chars) : Chars :=
  Text.substitute readDotQuote (Text.substitute readQuoteDot (Text.replace " . ".toList " ~ ".toList s))

/-- An exclamation mark becomes `not`, unless an equals sign follows it. -/
def spellNot : Chars → Chars
  | [] => []
  | c :: rest =>
    if c = '!' ∧ rest.head? ≠ some '=' then "not ".toList ++ spellNot rest else c :: spellNot rest

/-- Negation, outside literals. -/
def negations : Chars → Chars := mapUnquoted spellNot

/-- An operator with the blanks around it. -/
def readSpaced (operator word : Chars) (s : Chars) : Option (Chars × Chars) :=
  (Text.after? operator (s.dropWhile Text.isBlank)).map fun rest =>
    (word, rest.dropWhile Text.isBlank)

/-- A logical word between spaces, in any letter case. -/
def readLogicWord (s : Chars) : Option (Chars × Chars) :=
  let word? (w : Chars) : Option (Chars × Chars) :=
    match s with
    | ' ' :: rest =>
      if Text.asciiLower (rest.take w.length) = w then
        match rest.drop w.length with
        | ' ' :: tail => some (' ' :: w ++ [' '], tail)
        | _ => none
      else none
    | _ => none
  (word? "and".toList).or (word? "or".toList)

/-- Logical operators become words, and logical words lower case. -/
def spellLogic (s : Chars) : Chars :=
  Text.substitute readLogicWord
    (Text.substitute (readSpaced "||".toList " or ".toList)
      (Text.substitute (readSpaced "&&".toList " and ".toList) s))

/-- A legacy expression in the syntax of the target dialects. -/
def translate (e : Chars) : Chars :=
  Text.trimWhile Text.isBlank
    (spellLogic (negations (tildeJoins (dotArrows (dropSigils (quoteKeys e))))))

end ViewBridge.Expression
