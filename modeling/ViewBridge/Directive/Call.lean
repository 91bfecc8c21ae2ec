import ViewBridge.Directive.Basic
import ViewBridge.Expression
/-!
# Function tags

The body of a function tag is a method call, a plain call or any other expression. A body counts as one call
only if the parenthesis after the name is closed by the last one.
-/
namespace ViewBridge.Directive

/-- Where a reader of arguments stands: inside a literal or at a depth of brackets. -/
structure ArgumentState where
  quote : Option Char := none
  depth : Nat := 0
deriving DecidableEq, Repr

/-- Whether all parentheses of the arguments are closed among themselves, so that the pair around them
belongs to one call. -/
def closesAtEnd (st : ArgumentState) : Chars → Bool
  | [] => st.depth == 0
  | c :: rest =>
    match st.quote with
    | some q => closesAtEnd (if c = q then { st with quote := none } else st) rest
    | none =>
      if Expression.isQuote c then closesAtEnd { st with quote := some c } rest
      else if c = '(' then closesAtEnd { st with depth := st.depth + 1 } rest
      else if c = ')' then st.depth != 0 && closesAtEnd { st with depth := st.depth - 1 } rest
      else closesAtEnd st rest

/-- Whether there is a comma outside literals and brackets. -/
def hasTopComma (st : ArgumentState) : Chars → Bool
  | [] => false
  | c :: rest =>
    match st.quote with
    | some q => hasTopComma (if c = q then { st with quote := none } else st) rest
    | none =>
      if Expression.isQuote c then hasTopComma { st with quote := some c } rest
      else if c = '(' ∨ c = '[' ∨ c = '\x7b' then hasTopComma { st with depth := st.depth + 1 } rest
      else if c = ')' ∨ c = ']' ∨ c = '\x7d' then hasTopComma { st with depth := st.depth - 1 } rest
      else if c = ',' ∧ st.depth = 0 then true
      else hasTopComma st rest

/-- What the body of a function tag is. -/
inductive FunctionBody where
  | method (object : Chars) (chain : List Chars) (args : Chars)
  | call (name : Chars) (args : Option Chars)
  | other
deriving DecidableEq, Repr

/-- Arguments in parentheses, from here to the end of the body. -/
def readArguments (s : Chars) : Option Chars :=
  (Text.after? "(".toList s).bind (Text.before? ")".toList)

/-- The names of a member chain, each after an arrow; `fuel` bounds their number. -/
def readChain : (fuel : Nat) → Chars → List Chars × Chars
  | 0, s => ([], s)
  | fuel + 1, s =>
    match Text.after? "->".toList s with
    | some (c :: rest) =>
      if Text.isNameStart c then
        let (names, tail) := readChain fuel (rest.dropWhile Text.isNameChar)
        ((c :: rest.takeWhile Text.isNameChar) :: names, tail)
      else ([], s)
    | _ => ([], s)

/-- A method call that is the whole body: the object, the members up to the method, the arguments. -/
def readMethodCall (s : Chars) : Option FunctionBody := do
  let s ← Text.after? "$".toList s
  let object := s.takeWhile Text.isNameChar
  if ¬ object.head?.any Text.isNameStart then none
  else
    let (chain, s) := readChain s.length (s.dropWhile Text.isNameChar)
    if chain = [] then none
    else
      let args ← readArguments (s.dropWhile Text.isBlank)
      if closesAtEnd {} args then some (.method object chain args) else none

/-- The characters of a function name after the first one. -/
def isCallChar (c : Char) : Bool := Text.isNameChar c || c == ':'

/-- A plain call that is the whole body: a name, with or without arguments. -/
def readPlainCall (s : Chars) : Option FunctionBody :=
  let name := s.takeWhile isCallChar
  if ¬ name.head?.any Text.isNameStart then none
  else
    match (s.dropWhile isCallChar).dropWhile Text.isBlank with
    | [] => some (.call name none)
    | s => (readArguments s).bind fun args =>
      if closesAtEnd {} args then some (.call name (some args)) else none

/-- The shape of a function body. -/
def readFunctionBody (s : Chars) : FunctionBody :=
  ((readMethodCall s).or (readPlainCall s)).getD .other

end ViewBridge.Directive
