import ViewBridge.Value.Document
import ViewBridge.Value.Print
import ViewBridge.Value.Operator
/-!
# Escaping of output

What a template prints is escaped for the kind of document it makes, which its name tells: markup, JSON, or
plain text. A value that is marked safe is written as it is, and so are numbers in markup.

Results:
* `write_safe`: what is safe is not escaped.
* `ofName_of_no_dot`: a template without an extension makes markup.
-/
namespace ViewBridge.Template

/-- How output is escaped. -/
inductive Escaping where
  | markup
  | json
  | plain
deriving DecidableEq, Repr

namespace Escaping

/-- A character of markup as an entity if it is special. -/
def entity (c : Char) : Chars :=
  if c = '<' then "&lt;".toList
  else if c = '>' then "&gt;".toList
  else if c = '&' then "&amp;".toList
  else if c = '\x22' then "&quot;".toList
  else if c = '\x27' then "&#x27;".toList
  else if c = '/' then "&#x2f;".toList
  else [c]

/-- A text as markup. -/
def escapeMarkup (s : Chars) : Chars := s.flatMap entity

/-- The endings of a name that only say that it is a template. -/
def templateEndings : List String := [".j2", ".jinja2", ".jinja"]

/-- The escaping that the extension of a name asks for. -/
def ofExtension (name : Chars) : Escaping :=
  let name := (templateEndings.findSome? fun e => Text.before? e.toList name).getD name
  let extension := String.ofList (Text.afterLast '.' name)
  if ["html", "htm", "xml"].contains extension then .markup
  else if ["json", "json5", "js", "yaml", "yml"].contains extension then .json
  else .plain

/-- The escaping of a template's output. -/
def ofName (name : Chars) : Escaping :=
  let last := Text.afterLast '/' name
  if !last.contains '.' || Text.endsWith ".html.twig".toList last then .markup else ofExtension name

theorem ofName_of_no_dot {name : Chars} (h : (Text.afterLast '/' name).contains '.' = false) :
    ofName name = .markup := by
  simp only [ofName, h, Bool.not_false, Bool.true_or, if_true]

/-- Whether a value is a scalar that markup shows as it is. -/
def isBare : Value → Bool
  | .undefined | .none | .bool _ | .int _ | .float _ => true
  | _ => false

/-- A value as output. -/
def write (mode : Escaping) (v : Value) : Except RenderErrorKind Chars :=
  match v with
  | .text true s => .ok s
  | v =>
    match mode with
    | .plain => .ok v.print
    | .markup => .ok (if isBare v then v.print else escapeMarkup v.print)
    | .json =>
      match v.jsonText? with
      | some s => .ok s
      | none => .error .notSerializable

theorem write_safe (mode : Escaping) (s : Chars) : mode.write (.safeText s) = .ok s := rfl

end Escaping
end ViewBridge.Template
