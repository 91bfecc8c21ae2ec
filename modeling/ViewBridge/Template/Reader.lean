import ViewBridge.Template.Basic
import ViewBridge.Template.Scanner
/-!
# Reading a template

Tokens become statements. Operators bind by level, loosest first: alternatives, conjunctions, negation,
comparisons, sums, joins, products, powers. An operand is a literal, a name or a bracket, with minus signs
before it, then attributes, indexes and calls, then filters and tests. Nesting is limited.

Results:
* `tighter_rank`: going to the next level comes closer to the operands.
-/
namespace ViewBridge.Template

/-- A reading of tokens; those that are left are the state. -/
abbrev Reading (α : Type) := StateT (List Lexeme) (Except RenderErrorKind) α

namespace Reading

/-- A template that is not well formed. -/
def malformed {α : Type} : Reading α := fun _ => .error .syntaxError

/-- The next token; there must be one. -/
def peek : Reading Lexeme := fun ts =>
  match ts with
  | [] => .error .syntaxError
  | l :: _ =>
    match l.token with
    | .failure kind => .error kind
    | _ => .ok (l, ts)

/-- The next token, taken. -/
def take : Reading Lexeme := do
  let l ← peek
  modify (·.drop 1)
  pure l

/-- Take the next token if it is as wanted. -/
def accept (wanted : Token → Bool) : Reading Bool := do
  let l ← peek
  if wanted l.token then
    modify (·.drop 1)
    pure true
  else pure false

/-- Take the next token, which must be as wanted. -/
def expect (wanted : Token → Bool) : Reading Unit := do
  if ← accept wanted then pure () else malformed

/-- Take a name. -/
def anyName : Reading Chars := do
  match (← take).token with
  | .name s => pure s
  | _ => malformed

end Reading

open Reading

/-- The levels of binding, loosest first. -/
inductive Level where
  | either
  | both
  | negation
  | comparison
  | sum
  | joined
  | product
  | power
  | operand
deriving DecidableEq, Repr

namespace Level

/-- The next tighter level. -/
def tighter : Level → Level
  | either => both
  | both => negation
  | negation => comparison
  | comparison => sum
  | sum => joined
  | joined => product
  | product => power
  | power => operand
  | operand => operand

/-- How far a level is from the operands. -/
def rank : Level → Nat
  | either => 8
  | both => 7
  | negation => 6
  | comparison => 5
  | sum => 4
  | joined => 3
  | product => 2
  | power => 1
  | operand => 0

theorem tighter_rank (l : Level) : l.tighter.rank = l.rank - 1 := by cases l <;> rfl

/-- The arithmetic operator of a mark at a level. -/
def operator? : Level → Mark → Option Operator
  | sum, .plus => some .add
  | sum, .minus => some .sub
  | joined, .tilde => some .concat
  | product, .times => some .mul
  | product, .slash => some .div
  | product, .wholeSlash => some .wholeDiv
  | product, .percent => some .rem
  | power, .power => some .pow
  | _, _ => none

/-- How the operator that a token is at a level joins two expressions. -/
def join? (l : Level) (t : Token) : Option (Expr → Expr → Expr) :=
  match t with
  | .mark m => (l.operator? m).map .binary
  | .name s =>
    if l = either ∧ s = "or".toList then some .either
    else if l = both ∧ s = "and".toList then some .both
    else none
  | _ => none

end Level

/-- The comparison that a token is. -/
def comparison? : Token → Option Operator
  | .mark .same => some .same
  | .mark .differs => some .differs
  | .mark .less => some .less
  | .mark .lessEq => some .lessEq
  | .mark .greater => some .greater
  | .mark .greaterEq => some .greaterEq
  | .name s => if s = "in".toList then some .within else none
  | _ => none

/-- The constant that a name is. -/
def constantNamed? (s : Chars) : Option Value :=
  if s = "true".toList ∨ s = "True".toList then some (.bool true)
  else if s = "false".toList ∨ s = "False".toList then some (.bool false)
  else if s = "none".toList ∨ s = "None".toList then some .none
  else none

/-- The names that cannot be bound. -/
def reservedNames : List String := ["true", "True", "false", "False", "none", "None", "loop", "self"]

/-- An argument in a call: one by position or one by name. -/
abbrev Argument := Option Chars × Expr

/-- The arguments by position. -/
def positional (args : List Argument) : List Expr :=
  args.filterMap fun (name, e) => if name.isNone then some e else none

/-- The arguments by name. -/
def named (args : List Argument) : List (Chars × Expr) :=
  args.filterMap fun (name, e) => name.map fun n => (n, e)

/-- The arguments of a call: those by position, and those by name as one map after them. -/
def gather (line : Nat) (args : List Argument) : List Expr :=
  match named args with
  | [] => positional args
  | members =>
    positional args ++ [.ofMembers line (members.map fun (n, e) => (.const line (.ofChars n), e))]

/-- Whether an argument of a test can start with a token, where it has no parentheses around it. -/
def startsOperand : Token → Bool
  | .name s => ["and", "or", "else", "is"].all fun word => word.toList != s
  | .text _ | .int _ | .float _ => true
  | .mark m => m == .plus || m == .minus || m == .openBracket || m == .openBrace
  | _ => false

mutual

/-- An expression; `levels` more levels of nesting are allowed. -/
def readExpr : (fuel levels : Nat) → Reading Expr
  | 0, _ => malformed
  | _ + 1, 0 => malformed
  | fuel + 1, levels + 1 => readChoice fuel levels

/-- An expression with the conditions after it. -/
def readChoice : (fuel levels : Nat) → Reading Expr
  | 0, _ => malformed
  | fuel + 1, levels => do
    let e ← readLevel fuel levels .either
    readConditions fuel levels e

/-- The conditions after an expression; without an alternative the value is undefined. -/
def readConditions : (fuel levels : Nat) → Expr → Reading Expr
  | 0, _, _ => malformed
  | fuel + 1, levels, e => do
    if ← accept (Token.isName "if") then
      let test ← readLevel fuel levels .either
      if ← accept (Token.isName "else") then
        let no ← readChoice fuel levels
        readConditions fuel levels (.cond test e no)
      else readConditions fuel levels (.cond test e (.const e.lastLine .undefined))
    else pure e

/-- An expression at a level. -/
def readLevel : (fuel levels : Nat) → Level → Reading Expr
  | 0, _, _ => malformed
  | fuel + 1, levels, .negation => do
    if ← accept (Token.isName "not") then .not <$> readLevel fuel levels .negation
    else readLevel fuel levels .comparison
  | fuel + 1, levels, .comparison => do
    let a ← readLevel fuel levels .sum
    let links ← readLinks fuel levels
    pure (if links.isEmpty then a else .compare a links)
  | fuel + 1, levels, .operand => do
    let e ← readSigned fuel levels
    let e ← readPostfix fuel levels e
    readFilters fuel levels e
  | fuel + 1, levels, l => do
    let a ← readLevel fuel levels l.tighter
    readJoined fuel levels l a

/-- The operators of a level after an expression, with their right sides. -/
def readJoined : (fuel levels : Nat) → Level → Expr → Reading Expr
  | 0, _, _, _ => malformed
  | fuel + 1, levels, l, a => do
    match l.join? (← peek).token with
    | none => pure a
    | some f => do
      let _ ← take
      let b ← readLevel fuel levels l.tighter
      readJoined fuel levels l (f a b)

/-- The links of a chain of comparisons. -/
def readLinks : (fuel levels : Nat) → Reading (List ((Operator × Bool) × Expr))
  | 0, _ => malformed
  | fuel + 1, levels => do
    let t := (← peek).token
    match comparison? t with
    | some op => do
      let _ ← take
      let e ← readLevel fuel levels .sum
      let links ← readLinks fuel levels
      pure (((op, false), e) :: links)
    | none =>
      if t.isName "not" then
        let _ ← take
        expect (Token.isName "in")
        let e ← readLevel fuel levels .sum
        let links ← readLinks fuel levels
        pure (((.within, true), e) :: links)
      else pure []

/-- An operand with the minus signs before it. -/
def readSigned : (fuel levels : Nat) → Reading Expr
  | 0, _ => malformed
  | fuel + 1, levels => do
    if ← accept (Token.isMark .minus) then .neg <$> readSigned fuel levels
    else readPrimary fuel levels

/-- The attributes, indexes and calls after an operand. -/
def readPostfix : (fuel levels : Nat) → Expr → Reading Expr
  | 0, _, _ => malformed
  | fuel + 1, levels, e => do
    if ← accept (Token.isMark .dot) then
      let name ← anyName
      readPostfix fuel levels (.member e name)
    else if ← accept (Token.isMark .openBracket) then
      let index ← readIndex fuel levels e
      readPostfix fuel levels index
    else if ← accept (Token.isMark .openParen) then
      let line := e.lastLine
      let args ← readArguments fuel levels true false
      readPostfix fuel levels (.ofCall e (gather line args))
    else pure e

/-- An index or a slice of an expression, up to the closing bracket; a bound left out is none. -/
def readIndex : (fuel levels : Nat) → Expr → Reading Expr
  | 0, _, _ => malformed
  | fuel + 1, levels, e => do
    let absent := Expr.const e.lastLine .none
    let start ← if (← peek).token.isMark .colon then pure absent else readExpr fuel levels
    if ← accept (Token.isMark .colon) then
      let t := (← peek).token
      let stop ← if t.isMark .closeBracket || t.isMark .colon then pure absent
        else readExpr fuel levels
      let step ← if ← accept (Token.isMark .colon) then
          if (← peek).token.isMark .closeBracket then pure absent else readExpr fuel levels
        else pure absent
      expect (Token.isMark .closeBracket)
      pure (.slice e start stop step)
    else
      expect (Token.isMark .closeBracket)
      pure (.item e start)

/-- The filters and tests after an operand. -/
def readFilters : (fuel levels : Nat) → Expr → Reading Expr
  | 0, _, _ => malformed
  | fuel + 1, levels, e => do
    if ← accept (Token.isMark .bar) then
      let f ← readFiltering fuel levels
      readFilters fuel levels (f.over e)
    else if ← accept (Token.isName "is") then
      let negated ← accept (Token.isName "not")
      let name ← anyName
      let args ← readTestArguments fuel levels e.lastLine
      let test := Expr.passes e name args
      readFilters fuel levels (if negated then .not test else test)
    else pure e

/-- A filter's name with its arguments. -/
def readFiltering : (fuel levels : Nat) → Reading Filtering
  | 0, _ => malformed
  | fuel + 1, levels => do
    let name ← anyName
    if ← accept (Token.isMark .openParen) then
      let args ← readArguments fuel levels true false
      pure ⟨name, positional args, named args⟩
    else pure ⟨name, [], []⟩

/-- The arguments of a test: in parentheses, or a single operand without them. -/
def readTestArguments : (fuel levels : Nat) → (line : Nat) → Reading (List Expr)
  | 0, _, _ => malformed
  | fuel + 1, levels, line => do
    if ← accept (Token.isMark .openParen) then
      gather line <$> readArguments fuel levels true false
    else if startsOperand (← peek).token then do
      let e ← readSigned fuel levels
      let e ← readPostfix fuel levels e
      pure [e]
    else pure []

/-- The arguments of a call up to the closing parenthesis; after one by name all are by name. -/
def readArguments : (fuel levels : Nat) → (first named : Bool) → Reading (List Argument)
  | 0, _, _, _ => malformed
  | fuel + 1, levels, first, named => do
    if ← accept (Token.isMark .closeParen) then pure []
    else
      if !first then expect (Token.isMark .comma)
      if ← accept (Token.isMark .closeParen) then pure []
      else
        let e ← readExpr fuel levels
        let name : Option Chars := match e with
          | .var _ name => some name
          | _ => none
        if name.isSome && (← accept (Token.isMark .assign)) then
          let value ← readExpr fuel levels
          let rest ← readArguments fuel levels false true
          pure ((name, value) :: rest)
        else if named then malformed
        else
          let rest ← readArguments fuel levels false false
          pure ((none, e) :: rest)

/-- Expressions with commas between them, up to a closing bracket. -/
def readItems : (fuel levels : Nat) → (first : Bool) → (closing : Mark) → Reading (List Expr)
  | 0, _, _, _ => malformed
  | fuel + 1, levels, first, closing => do
    if ← accept (Token.isMark closing) then pure []
    else
      if !first then expect (Token.isMark .comma)
      if ← accept (Token.isMark closing) then pure []
      else
        let e ← readExpr fuel levels
        let rest ← readItems fuel levels false closing
        pure (e :: rest)

/-- Keys and values, up to the closing brace. -/
def readMembers : (fuel levels : Nat) → (first : Bool) → Reading (List (Expr × Expr))
  | 0, _, _ => malformed
  | fuel + 1, levels, first => do
    if ← accept (Token.isMark .closeBrace) then pure []
    else
      if !first then expect (Token.isMark .comma)
      if ← accept (Token.isMark .closeBrace) then pure []
      else
        let key ← readExpr fuel levels
        expect (Token.isMark .colon)
        let value ← readExpr fuel levels
        let rest ← readMembers fuel levels false
        pure ((key, value) :: rest)

/-- A literal, a name, or a bracket. -/
def readPrimary : (fuel levels : Nat) → Reading Expr
  | 0, _ => malformed
  | _ + 1, 0 => malformed
  | fuel + 1, levels + 1 => do
    let l ← take
    match l.token with
    | .name s =>
      match constantNamed? s with
      | some v => pure (.const l.line v)
      | none => pure (.var l.line s)
    | .text s => pure (.const l.line (.ofChars s))
    | .int n => pure (.const l.line (.int n))
    | .float x => pure (.const l.line (.float x))
    | .mark .openParen => do
      if ← accept (Token.isMark .closeParen) then pure (.ofItems l.line [])
      else
        let e ← readExpr fuel levels
        if ← accept (Token.isMark .comma) then
          let rest ← readItems fuel levels true .closeParen
          pure (.ofItems l.line (e :: rest))
        else
          expect (Token.isMark .closeParen)
          pure e
    | .mark .openBracket => .ofItems l.line <$> readItems fuel levels true .closeBracket
    | .mark .openBrace => .ofMembers l.line <$> readMembers fuel levels true
    | _ => malformed

end

/-- A name that can be bound. -/
def bindableName : Reading Chars := do
  let s ← anyName
  if reservedNames.any fun r => r.toList == s then malformed else pure s

mutual

/-- What a loop or an assignment binds: a name, or several in parentheses or with commas. -/
def readTarget : (fuel : Nat) → Reading Target
  | 0 => malformed
  | fuel + 1 => do
    let line := (← peek).line
    let (targets, several) ← readTargets fuel
    match targets, several with
    | [t], false => pure t
    | ts, _ => pure (.several line ts)

/-- Targets with commas between them, and whether there was a comma. -/
def readTargets : (fuel : Nat) → Reading (List Target × Bool)
  | 0 => malformed
  | fuel + 1 => do
    let t := (← peek).token
    if t.isMark .closeParen || t.isStop .output || t.isStop .statement || t.isName "in" then
      pure ([], false)
    else
      let target ← if ← accept (Token.isMark .openParen) then do
          let inner ← readTarget fuel
          expect (Token.isMark .closeParen)
          pure inner
        else Target.name <$> bindableName
      if ← accept (Token.isMark .comma) then
        let (rest, _) ← readTargets fuel
        pure (target :: rest, true)
      else pure ([target], false)

end

/-- The attributes after an assigned name: whether there are any. -/
def readDotted : (fuel : Nat) → Reading Bool
  | 0 => malformed
  | fuel + 1 => do
    if ← accept (Token.isMark .dot) then
      let _ ← anyName
      let _ ← readDotted fuel
      pure true
    else pure false

/-- Targets in parentheses, if there are any. -/
def readParenthesized (fuel : Nat) : Reading (Option Target) := do
  if ← accept (Token.isMark .openParen) then
    let inner ← readTarget fuel
    expect (Token.isMark .closeParen)
    pure (some inner)
  else pure none

/-- Filters with bars between them, up to the end of the tag; there must be one. -/
def readFilterings : (fuel levels : Nat) → (first : Bool) → Reading (List Filtering)
  | 0, _, _ => malformed
  | fuel + 1, levels, first => do
    if (← peek).token.isStop .statement then (if first then malformed else pure [])
    else
      if !first then expect (Token.isMark .bar)
      let f ← readFiltering fuel levels
      let rest ← readFilterings fuel levels false
      pure (f :: rest)

/-- What a tag binds for the body after it, up to the end of the tag. -/
def readBindings : (fuel levels : Nat) → (first : Bool) → Reading (List (Target × Expr))
  | 0, _, _ => malformed
  | fuel + 1, levels, first => do
    if (← peek).token.isStop .statement then pure []
    else
      if !first then expect (Token.isMark .comma)
      let target ← match ← readParenthesized fuel with
        | some target => pure target
        | none => .name <$> bindableName
      expect (Token.isMark .assign)
      let e ← readExpr fuel levels
      let rest ← readBindings fuel levels false
      pure ((target, e) :: rest)

/-- An insertion of another template. -/
def readInsertion (fuel levels : Nat) : Reading Stmt := do
  let name ← readExpr fuel levels
  if ← accept (Token.isName "ignore") then
    expect (Token.isName "missing")
    pure (.insertion name true)
  else pure (.insertion name false)

/-- The end of a statement tag. -/
def tagEnd : Reading Unit := expect (Token.isStop .statement)

mutual

/-- Statements up to a tag that starts with one of the given words, or to the end of the template. -/
def readBody : (fuel levels : Nat) → (inLoop : Bool) → (ends : List String) → Reading (List Stmt)
  | 0, _, _, _ => malformed
  | fuel + 1, levels, inLoop, ends => do
    match ← get with
    | [] => pure []
    | _ :: _ => do
      match (← take).token with
      | .data s => do
        let rest ← readBody fuel levels inLoop ends
        pure (.data s :: rest)
      | .start .output => do
        let e ← readExpr fuel levels
        expect (Token.isStop .output)
        let rest ← readBody fuel levels inLoop ends
        pure (.output e :: rest)
      | .start .statement => do
        let t := (← peek).token
        if ends.any fun word => t.isName word then pure []
        else
          let stmt ← readStatement fuel levels inLoop
          tagEnd
          let rest ← readBody fuel levels inLoop ends
          pure (stmt :: rest)
      | _ => malformed

/-- A statement after the border of its tag. -/
def readStatement : (fuel levels : Nat) → (inLoop : Bool) → Reading Stmt
  | 0, _, _ => malformed
  | _ + 1, 0, _ => malformed
  | fuel + 1, levels + 1, inLoop => do
    let word ← anyName
    if word = "for".toList then readLoop fuel levels inLoop
    else if word = "if".toList then readBranch fuel levels inLoop
    else if word = "set".toList then readAssignment fuel levels inLoop
    else if word = "with".toList then
      let bindings ← readBindings fuel levels true
      .scoped bindings <$> readBlock fuel levels inLoop "endwith"
    else if word = "filter".toList then
      let line := (← peek).line
      let filters ← readFilterings fuel levels true
      .filtered line filters <$> readBlock fuel levels inLoop "endfilter"
    else if word = "autoescape".toList then
      let mode ← readExpr fuel levels
      .escaped mode <$> readBlock fuel levels inLoop "endautoescape"
    else if word = "do".toList then
      match ← readExpr fuel levels with
      | .call line name args => pure (.effect (.call line name args))
      | .method e name args => pure (.effect (.method e name args))
      | .apply e args => pure (.effect (.apply e args))
      | _ => malformed
    else if word = "include".toList then readInsertion fuel levels
    else if word = "break".toList ∧ inLoop then pure .leave
    else if word = "continue".toList ∧ inLoop then pure .next
    else malformed

/-- A body after a tag, with the end of that tag before it and the word of its own end tag after it. -/
def readBlock : (fuel levels : Nat) → (inLoop : Bool) → (last : String) → Reading (List Stmt)
  | 0, _, _, _ => malformed
  | fuel + 1, levels, inLoop, last => do
    tagEnd
    let body ← readBody fuel levels inLoop [last]
    let _ ← take
    pure body

/-- An assignment after its first word: of a value, or of the text of a body. -/
def readAssignment : (fuel levels : Nat) → (inLoop : Bool) → Reading Stmt
  | 0, _, _ => malformed
  | fuel + 1, levels, inLoop => do
    let line := (← peek).line
    match ← readParenthesized fuel with
    | some target => do
      expect (Token.isMark .assign)
      .assign target <$> readExpr fuel levels
    | none => do
      let name ← bindableName
      let dotted ← readDotted fuel
      let target := if dotted then .inside line else .name name
      if ← accept (Token.isMark .bar) then do
        let filters ← readFilterings fuel levels true
        .capture target line filters <$> readBlock fuel levels inLoop "endset"
      else if (← peek).token.isStop .statement then
        .capture target line [] <$> readBlock fuel levels inLoop "endset"
      else do
        expect (Token.isMark .assign)
        .assign target <$> readExpr fuel levels

/-- A loop after its first word, through its last one. -/
def readLoop : (fuel levels : Nat) → (inLoop : Bool) → Reading Stmt
  | 0, _, _ => malformed
  | fuel + 1, levels, inLoop => do
    let target ← readTarget fuel
    expect (Token.isName "in")
    let source ← readLevel fuel levels .either
    let condition ← if ← accept (Token.isName "if") then some <$> readExpr fuel levels else pure none
    tagEnd
    let body ← readBody fuel levels true ["endfor", "else"]
    if ← accept (Token.isName "else") then
      tagEnd
      let otherwise ← readBody fuel levels inLoop ["endfor"]
      let _ ← take
      pure (.loop target source condition body otherwise)
    else
      let _ ← take
      pure (.loop target source condition body [])

/-- A branch after its first word, through its last one. -/
def readBranch : (fuel levels : Nat) → (inLoop : Bool) → Reading Stmt
  | 0, _, _ => malformed
  | fuel + 1, levels, inLoop => do
    let test ← readExpr fuel levels
    tagEnd
    let yes ← readBody fuel levels inLoop ["endif", "else", "elif"]
    if ← accept (Token.isName "else") then
      tagEnd
      let no ← readBody fuel levels inLoop ["endif"]
      let _ ← take
      pure (.branch test yes no)
    else if ← accept (Token.isName "elif") then
      let no ← readBranch fuel levels inLoop
      pure (.branch test yes [no])
    else
      let _ ← take
      pure (.branch test yes [])

end

/-- How deep a template may be nested. -/
def nestingLimit : Nat := 150

/-- The statements of a template's source. -/
def read (source : Chars) : Except RenderErrorKind (List Stmt) :=
  let ts := tokens source
  ((readBody (16 * ts.length + 32) nestingLimit false []).run ts).map Prod.fst

/-- The expression that a text is. -/
def readExpression (source : Chars) : Except RenderErrorKind Expr :=
  let ts := scanTag (2 * source.length + 2) .output 0 1 (source ++ TagKind.output.closing)
  (do
    let e ← readExpr (16 * ts.length + 32) nestingLimit
    expect (Token.isStop .output)
    pure e : Reading Expr).run' ts

end ViewBridge.Template
