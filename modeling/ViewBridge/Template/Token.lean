import ViewBridge.Error
/-!
# Tokens of a template

A template is text between tags. Output tags hold an expression, statement tags a statement; what stands in
them is a sequence of names, literals and marks, each with the line it starts on.
-/
namespace ViewBridge.Template

/-- The marks inside a tag. -/
inductive Mark where
  | plus
  | minus
  | times
  | slash
  | percent
  | wholeSlash
  | power
  | dot
  | comma
  | colon
  | tilde
  | bar
  | assign
  | same
  | differs
  | less
  | lessEq
  | greater
  | greaterEq
  | openParen
  | closeParen
  | openBracket
  | closeBracket
  | openBrace
  | closeBrace
deriving DecidableEq, Repr

namespace Mark

/-- The marks of two characters, which are read before those of one. -/
def ofPair? (a b : Char) : Option Mark :=
  if a = '/' ∧ b = '/' then some wholeSlash
  else if a = '*' ∧ b = '*' then some power
  else if a = '=' ∧ b = '=' then some same
  else if a = '!' ∧ b = '=' then some differs
  else if a = '>' ∧ b = '=' then some greaterEq
  else if a = '<' ∧ b = '=' then some lessEq
  else none

/-- The marks of one character. -/
def ofChar? (c : Char) : Option Mark :=
  if c = '+' then some plus
  else if c = '-' then some minus
  else if c = '*' then some times
  else if c = '/' then some slash
  else if c = '%' then some percent
  else if c = '.' then some dot
  else if c = ',' then some comma
  else if c = ':' then some colon
  else if c = '~' then some tilde
  else if c = '|' then some bar
  else if c = '=' then some assign
  else if c = '<' then some less
  else if c = '>' then some greater
  else if c = '(' then some openParen
  else if c = ')' then some closeParen
  else if c = '[' then some openBracket
  else if c = ']' then some closeBracket
  else if c = '\x7b' then some openBrace
  else if c = '\x7d' then some closeBrace
  else none

/-- How a mark changes the count of open brackets. -/
def nesting : Mark → Int
  | openParen | openBracket | openBrace => 1
  | closeParen | closeBracket | closeBrace => -1
  | _ => 0

end Mark

/-- The two kinds of tags that hold tokens. -/
inductive TagKind where
  | output
  | statement
deriving DecidableEq, Repr

namespace TagKind

/-- The text that ends a tag. -/
def closing : TagKind → Chars
  | output => ['\x7d', '\x7d']
  | statement => ['%', '\x7d']

end TagKind

/-- A token. A template that cannot be read further ends in the failure. -/
inductive Token where
  | data (s : Chars)
  | start (kind : TagKind)
  | stop (kind : TagKind)
  | name (s : Chars)
  | text (s : Chars)
  | int (n : Nat)
  | float (x : Float)
  | mark (m : Mark)
  | failure (kind : RenderErrorKind)

namespace Token

/-- Whether a token is a certain name. -/
def isName (s : String) : Token → Bool
  | .name t => t == s.toList
  | _ => false

/-- Whether a token is a certain mark. -/
def isMark (m : Mark) : Token → Bool
  | .mark m' => m == m'
  | _ => false

/-- Whether a token ends a tag of a kind. -/
def isStop (kind : TagKind) : Token → Bool
  | .stop k => kind == k
  | _ => false

end Token

/-- A token with the line it starts on. -/
structure Lexeme where
  token : Token
  line : Nat

end ViewBridge.Template
