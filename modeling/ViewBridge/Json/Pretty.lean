import ViewBridge.Json.Basic
/-!
# Spread-out JSON

Documents with every item and member on a line of its own, moved to the right by some blanks for every
container around it; empty arrays and objects stay on one line.

Results:
* `pretty_of_empty`: what is empty takes no lines.
-/
namespace ViewBridge.Json

/-- A line break and the blanks of a line that is `depth` containers deep, `width` for each of them. -/
def newLine (width depth : Nat) : Chars := '\n' :: List.replicate (width * depth) ' '

mutual

/-- The text of a document that starts `depth` containers deep. -/
def pretty (width depth : Nat) : Json → Chars
  | .arr (x :: xs) => '[' :: prettyItems width (depth + 1) (x :: xs) ++ newLine width depth ++ [']']
  | .obj (m :: ms) => '\x7b' :: prettyMembers width (depth + 1) (m :: ms) ++ newLine width depth ++ ['\x7d']
  | j => j.render

/-- Items, each on a line of its own. -/
def prettyItems (width depth : Nat) : List Json → Chars
  | [] => []
  | [x] => newLine width depth ++ pretty width depth x
  | x :: y :: rest => newLine width depth ++ pretty width depth x ++ ',' :: prettyItems width depth (y :: rest)

/-- Members, each on a line of its own. -/
def prettyMembers (width depth : Nat) : List (Chars × Json) → Chars
  | [] => []
  | [(k, x)] => newLine width depth ++ renderString k ++ ':' :: ' ' :: pretty width depth x
  | (k, x) :: y :: rest =>
    newLine width depth ++ renderString k ++ ':' :: ' ' :: pretty width depth x ++
      ',' :: prettyMembers width depth (y :: rest)

end

theorem pretty_of_empty (width depth : Nat) :
    pretty width depth (.arr []) = ['[', ']'] ∧ pretty width depth (.obj []) = ['\x7b', '\x7d'] :=
  ⟨rfl, rfl⟩

end ViewBridge.Json
