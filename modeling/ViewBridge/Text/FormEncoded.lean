import ViewBridge.Text.Class
import ViewBridge.Text.Basic
/-!
# Form encoding

A text as it stands in the query of an address: letters, digits and four marks are kept, a space becomes a
plus sign, and every other byte is written in base 16 after a percent sign.

Results:
* `formEncode_append`: encoding works character by character.
-/
namespace ViewBridge.Text

/-- The characters that stand for themselves. -/
def isFormSafe (c : Char) : Bool :=
  isLetter c || isDigit c || c == '*' || c == '-' || c == '.' || c == '_'

/-- A digit in base 16, in upper case. -/
def upperHexDigit (n : Nat) : Char := (hexDigit n).toUpper

/-- A byte after a percent sign. -/
def percentByte (b : UInt8) : Chars := ['%', upperHexDigit (b.toNat / 16), upperHexDigit (b.toNat % 16)]

/-- One character in form encoding. -/
def formEncodeChar (c : Char) : Chars :=
  if isFormSafe c then [c]
  else if c = ' ' then ['+']
  else (utf8 [c]).flatMap percentByte

/-- A text in form encoding. -/
def formEncode (s : Chars) : Chars := s.flatMap formEncodeChar

theorem formEncode_append (s t : Chars) : formEncode (s ++ t) = formEncode s ++ formEncode t := by
  simp [formEncode]

end ViewBridge.Text
