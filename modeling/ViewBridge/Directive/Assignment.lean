import ViewBridge.Directive.Basic
/-!
# Assignments

A variable tag whose translated expression starts with a name and an assignment operator sets that name
instead of printing a value.
-/
namespace ViewBridge.Directive

/-- An assignment: to a name, with an operator that joins the old value or without. -/
structure Assignment where
  name : Chars
  operator : Option Char
  value : Chars
deriving DecidableEq, Repr

/-- The characters of an assigned name. -/
def isTargetChar (c : Char) : Bool := Text.isLetter c || Text.isDigit c || c == '_' || c == '.'

/-- The operators that join the old value. -/
def isJoining (c : Char) : Bool := c == '-' || c == '+' || c == '*' || c == '/' || c == '.'

/-- An assignment that joins the old value. A dot directly before the equals sign is the operator, not a
part of the name. -/
def readCompound (e : Chars) : Option Assignment :=
  let name := e.takeWhile isTargetChar
  let rest := e.dropWhile isTargetChar
  let spaced : Option Assignment := match rest.dropWhile Text.isBlank with
    | op :: '=' :: value =>
      if name ≠ [] ∧ isJoining op then some ⟨name, some op, value.dropWhile Text.isBlank⟩ else none
    | _ => none
  let dotted : Option Assignment := match rest with
    | '=' :: value =>
      if name.getLast? = some '.' ∧ name.dropLast ≠ [] then
        some ⟨name.dropLast, some '.', value.dropWhile Text.isBlank⟩
      else none
    | _ => none
  spaced.or dotted

/-- An assignment of a new value; two equals signs compare. -/
def readSimple (e : Chars) : Option Assignment :=
  let name := e.takeWhile isTargetChar
  if name = [] then none
  else
    match (e.dropWhile isTargetChar).dropWhile Text.isBlank with
    | '=' :: value =>
      let value := value.dropWhile Text.isBlank
      if value.head? = some '=' then none else some ⟨name, none, value⟩
    | _ => none

/-- The assignment that a translated expression makes, if it makes one. -/
def readAssignment (e : Chars) : Option Assignment := (readCompound e).or (readSimple e)

end ViewBridge.Directive
