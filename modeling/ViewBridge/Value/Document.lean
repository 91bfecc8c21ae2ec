import ViewBridge.Value.Order
import ViewBridge.Json.Basic
/-!
# Values and documents

A document becomes a value, with the members of an object in the order of their keys; a value becomes a
document unless a map in it has a key that cannot be written as a name.

Results:
* `toJson?_ofChars`: texts are texts.
-/
namespace ViewBridge.Value

mutual

/-- The value of a document; of a key written twice the last member counts. -/
def ofJson : Json → Value
  | .null => .none
  | .bool b => .bool b
  | .int n => .int n
  | .float x => .float x
  | .str s => ofChars s
  | .arr items => .seq (ofJsonItems items)
  | .obj members => ofNamed (ofJsonMembers members)

/-- The values of items. -/
def ofJsonItems : List Json → List Value
  | [] => []
  | x :: xs => ofJson x :: ofJsonItems xs

/-- The values of members. -/
def ofJsonMembers : List (Chars × Json) → List (Chars × Value)
  | [] => []
  | (k, x) :: ms => (k, ofJson x) :: ofJsonMembers ms

end

/-- The name that a key is written as. -/
def keyName? : Value → Option Chars
  | .text _ s => some s
  | .bool b => some (if b then "true".toList else "false".toList)
  | .int n => some (Text.ofInt n)
  | .float x =>
    match Binary.ofFloat x with
    | .finite .. => some (FloatStyle.json.render x)
    | _ => Option.none
  | _ => Option.none

mutual

/-- The document of a value. -/
def toJson? : Value → Option Json
  | .undefined => some .null
  | .none => some .null
  | .bool b => some (.bool b)
  | .int n => some (.int n)
  | .float x => some (.float x)
  | .text _ s => some (.str s)
  | .seq items => (toJsonItems? items).map .arr
  | .series items => (toJsonItems? items).map .arr
  | .map members => (toJsonMembers? members).map .obj
  | .callable name => some (.str name)

/-- The documents of items. -/
def toJsonItems? : List Value → Option (List Json)
  | [] => some []
  | v :: vs => (toJson? v).bind fun x => (toJsonItems? vs).map (x :: ·)

/-- The members of an object. -/
def toJsonMembers? : List (Value × Value) → Option (List (Chars × Json))
  | [] => some []
  | (k, v) :: ms =>
    (keyName? k).bind fun name => (toJson? v).bind fun x => (toJsonMembers? ms).map ((name, x) :: ·)

end

/-- The JSON text of a value. -/
def jsonText? (v : Value) : Option Chars := (toJson? v).map Json.render

theorem toJson?_ofChars (s : Chars) : toJson? (ofChars s) = some (.str s) := by
  simp [ofChars, toJson?]

end ViewBridge.Value
