import ViewBridge.Helper.Argument
import ViewBridge.Text.Case
import ViewBridge.Text.Class
/-!
# Filters on texts

What filters do to the printed text of a value, and the numbers that they read from one.

Results:
* `replaceAll_of_ne_nil`: replacing a text that is not empty is replacing its occurrences.
-/
namespace ViewBridge.Template.Filter

open Arguments

/-- The invalid operation, as a reading. -/
def refused {α : Type} : Arguments α := throw Value.invalid

/-- A filter on the printed text of a value. -/
def onText (f : Chars → Chars) : Arguments Value := do
  let s ← required printed
  done
  pure (.ofChars (f s))

/-- The first character in upper case, the others in lower case. -/
def capitalize (s : Chars) : Chars := Text.upper (s.take 1) ++ Text.lower (s.drop 1)

/-- Whether a word starts after a character: a blank or an ASCII mark. -/
def endsWord (c : Char) : Bool :=
  Text.isBlank c || (33 ≤ c.toNat && c.toNat ≤ 126 && !Text.isLetter c && !Text.isDigit c)

/-- The words capitalized; `start` says whether a word starts here. -/
def titleFrom : (start : Bool) → Chars → Chars
  | _, [] => []
  | start, c :: cs =>
    if endsWord c then c :: titleFrom true cs
    else (if start then Text.upperChar c else Text.lowerChar c) ++ titleFrom false cs

/-- Every word capitalized. -/
def title (s : Chars) : Chars := titleFrom true s

/-- A text without the given characters at its ends, or without blanks if none are given. -/
def trim (s : Chars) (chars : Option Chars) : Chars :=
  match chars with
  | some cs => Text.trimWhile (fun c => cs.contains c) s
  | none => Text.trimWhile Text.isBlank s

/-- Every occurrence of a text replaced; an empty text occurs around every character. -/
def replaceAll (old new s : Chars) : Chars :=
  if old = [] then new ++ s.flatMap fun c => c :: new else Text.replace old new s

theorem replaceAll_of_ne_nil {old : Chars} (h : old ≠ []) (new s : Chars) :
    replaceAll old new s = Text.replace old new s := if_neg h

/-- A text without one line break at its end. -/
def withoutBreak (s : Chars) : Chars :=
  let s := (Text.before? ['\n'] s).getD s
  (Text.before? ['\r'] s).getD s

/-- The lines of a text; the last one may end without a break. -/
def lines (s : Chars) : List Chars :=
  let parts := Text.splitOn ['\n'] s
  let full := parts.dropLast.map fun line => (Text.before? ['\r'] line).getD line
  match parts.getLast? with
  | some [] | none => full
  | some rest => full ++ [rest]

/-- The lines of a text moved to the right by `width` blanks, the first one and those that are empty only when
asked for. -/
def indent (s : Chars) (width : Nat) (first blank : Bool) : Chars :=
  let shift line :=
    if line = [] then (if blank then List.replicate width ' ' else [])
    else List.replicate width ' ' ++ line
  let moved := match Text.splitOn ['\n'] (withoutBreak s) with
    | [] => []
    | line :: rest => (if first then shift line else line) :: rest.map shift
  withoutBreak (Text.join ['\n'] moved ++ ['\n'])

/-- A value as an integer: a double loses its decimals, and a text is read in full. -/
def toWhole : Value → Except RenderError Value
  | .undefined | .none => .ok (.int 0)
  | .bool b => .ok (.int (Value.ofBit b))
  | .int n => .ok (.int n)
  | .float x => .ok (.int (whole x))
  | .text _ s =>
    match readInt? Value.int128Min Value.int128Max s with
    | some n => .ok (.int n)
    | none =>
      match readFloat? s with
      | some x => .ok (.int (whole x))
      | none => .error Value.invalid
  | _ => .error Value.invalid
where
  /-- A double without its decimals, held within 128 bits. -/
  whole (x : Float) : Int := Binary.clamp Value.int128Min Value.int128Max (Binary.ofFloat x)

/-- A value as a double; a text is read in full. -/
def toDouble : Value → Except RenderError Value
  | .undefined | .none => .ok (.float (Binary.ofInt 0))
  | .bool b => .ok (.float (Binary.ofInt (Value.ofBit b)))
  | .int n => .ok (.float (Binary.ofInt n))
  | .float x => .ok (.float x)
  | .text _ s =>
    match readFloat? s with
    | some x => .ok (.float x)
    | none => .error Value.invalid
  | _ => .error Value.invalid

end ViewBridge.Template.Filter
