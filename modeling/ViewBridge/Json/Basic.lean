import ViewBridge.Number.Style
/-!
# JSON documents

A document is a tree; an object keeps its members in the order they were written. Writing is compact:
members in order, no blanks, non-ASCII text as it is.

Results:
* `renderString_ne_nil`: a written string is never empty.
-/
namespace ViewBridge

/-- A JSON document. -/
inductive Json where
  | null
  | bool (b : Bool)
  | int (n : Int)
  | float (x : Float)
  | str (s : Chars)
  | arr (items : List Json)
  | obj (members : List (Chars × Json))
deriving Inhabited

namespace Json

/-- One character inside a JSON string. -/
def escapeChar (c : Char) : Chars :=
  if c = '\x22' then ['\\', '\x22']
  else if c = '\\' then ['\\', '\\']
  else if c = '\x08' then ['\\', 'b']
  else if c = '\x0c' then ['\\', 'f']
  else if c = '\n' then ['\\', 'n']
  else if c = '\r' then ['\\', 'r']
  else if c = '\t' then ['\\', 't']
  else if c.toNat < 32 then '\\' :: 'u' :: Text.padLeft '0' 4 (Nat.toDigits 16 c.toNat)
  else [c]

/-- A string with its quotes. -/
def renderString (s : Chars) : Chars := '\x22' :: s.flatMap escapeChar ++ ['\x22']

theorem renderString_ne_nil (s : Chars) : renderString s ≠ [] := by simp [renderString]

/-- A double; the undefined number and the infinities have no JSON form and become `null`. -/
def renderFloat (x : Float) : Chars :=
  match Binary.ofFloat x with
  | .finite .. => FloatStyle.json.render x
  | _ => "null".toList

mutual

/-- The text of a document. -/
def render : Json → Chars
  | .null => "null".toList
  | .bool true => "true".toList
  | .bool false => "false".toList
  | .int n => Text.ofInt n
  | .float x => renderFloat x
  | .str s => renderString s
  | .arr items => '[' :: renderItems items ++ [']']
  | .obj members => '\x7b' :: renderMembers members ++ ['\x7d']

/-- Items with commas between them. -/
def renderItems : List Json → Chars
  | [] => []
  | [x] => render x
  | x :: y :: rest => render x ++ ',' :: renderItems (y :: rest)

/-- Members with commas between them. -/
def renderMembers : List (Chars × Json) → Chars
  | [] => []
  | [(k, x)] => renderString k ++ ':' :: render x
  | (k, x) :: y :: rest => renderString k ++ ':' :: render x ++ ',' :: renderMembers (y :: rest)

end

/-- The member of an object with a key; the last one written counts. -/
def get? (key : String) : Json → Option Json
  | .obj members => (members.reverse.find? fun m => m.1 == key.toList).map (·.2)
  | _ => none

end Json
end ViewBridge
