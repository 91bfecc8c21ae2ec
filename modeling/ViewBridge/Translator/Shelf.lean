import ViewBridge.Text.Substitution
import ViewBridge.Text.Class
import ViewBridge.Number.Reading
/-!
# The shelf

The bodies of comments and verbatim blocks must not be seen by later stages. They are put on a shelf, and a
placeholder takes their place: a private-use character, the number of the body, as many line breaks as the
body has, and a second private-use character. A literal first character travels as the pair of both, with
which no placeholder starts.

Results:
* `restore_of_empty`: with nothing on the shelf, only the escaped pairs are undone.
-/
namespace ViewBridge.Shelf

/-- The character that opens a placeholder. -/
def opening : Char := Char.ofNat 0xE000

/-- The character that closes a placeholder. -/
def closing : Char := Char.ofNat 0xE001

/-- Literal opening characters become pairs. -/
def escape (s : Chars) : Chars := Text.replace [opening] [opening, closing] s

/-- Pairs become literal opening characters. -/
def unescape (s : Chars) : Chars := Text.replace [opening, closing] [opening] s

/-- The placeholder of the body with a number, which has the given text. -/
def placeholder (number : Nat) (body : Chars) : Chars :=
  opening :: Text.ofNat number ++ List.replicate (Text.occurrences '\n' body) '\n' ++ [closing]

/-- Put a body on the shelf: its placeholder and the shelf with it. -/
def put (shelf : List Chars) (body : Chars) : Chars × List Chars :=
  (placeholder shelf.length body, shelf ++ [body])

/-- A placeholder at the start of a text: the number in it. -/
def readPlaceholder (s : Chars) : Option (Nat × Chars) :=
  match s with
  | c :: rest =>
    let number := rest.takeWhile Text.isDigit
    if c = opening ∧ number ≠ [] then
      match (rest.dropWhile Text.isDigit).dropWhile (· == '\n') with
      | d :: tail => if d = closing then some (digitsValue number, tail) else none
      | [] => none
    else none
  | [] => none

/-- The body that a placeholder stands for. -/
def take (shelf : List Chars) (s : Chars) : Option (Chars × Chars) :=
  (readPlaceholder s).bind fun (number, rest) => (shelf[number]?).map fun body => (body, rest)

/-- All placeholders replaced by their bodies, then all pairs undone. -/
def restore (shelf : List Chars) (s : Chars) : Chars := unescape (Text.substitute (take shelf) s)

theorem restore_of_empty (s : Chars) : restore [] s = unescape s := by
  rw [restore, Text.substitute_eq_self]
  intro t _
  simp [take]

end ViewBridge.Shelf
