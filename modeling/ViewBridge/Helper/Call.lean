import ViewBridge.Helper
import ViewBridge.Helper.Argument
import ViewBridge.Value.Document
import ViewBridge.Html
import ViewBridge.Number.Rounding
import ViewBridge.Text.Part
import ViewBridge.Text.FormEncoded
import ViewBridge.Calendar.Format
/-!
# Calling the legacy helpers

What each helper does with its arguments. Texts are taken loosely, as legacy templates give them; the
results that are markup are marked safe.

Results:
* `withExtension_of_dot`: a file name with an extension is kept.
* `extreme_single`: the extreme of one value is that value.
-/
namespace ViewBridge

/-- What helpers know beside their arguments: the constants of the project, the extension of legacy
templates, and the time. -/
structure HelperContext where
  constants : List (Chars × Value)
  extension : Chars
  now : Instant

namespace Helper

/-- A file name with the extension of legacy templates, unless its last part has a dot. -/
def withExtension (extension name : Chars) : Chars :=
  if (Text.afterLast '/' name).contains '.' then name else name ++ '.' :: extension

theorem withExtension_of_dot {extension name : Chars}
    (h : (Text.afterLast '/' name).contains '.' = true) : withExtension extension name = name := by
  simp only [withExtension, h, if_true]

/-- The name of an included file; nothing is added to a name that is empty. -/
def fileName (extension : Chars) (file : Value) : Value :=
  if file.legacyText = [] then file else .ofChars (withExtension extension file.legacyText)

/-- Whether a value counts as empty: it is not true, or it is the text of a zero. -/
def isEmpty (v : Value) : Bool :=
  !v.isTrue || match v with
    | .text _ s => s == ['0']
    | _ => false

/-- How many values there are in a value; a scalar is one. -/
def size : Value → Nat
  | .undefined | .none => 0
  | .seq items | .series items => items.length
  | .map members => members.length
  | _ => 1

/-- Whether a map has a key, or a sequence a position. -/
def hasKey (key : Value) : Value → Bool
  | .map members =>
    match Value.get? key members with
    | some .undefined => false
    | some _ => true
    | Option.none => false
  | .seq items => decide (0 ≤ key.toInt ∧ key.toInt < items.length)
  | _ => false

/-- The position of a text in another one, from an offset on. -/
def position? (haystack needle : Chars) (offset : Nat) : Option Nat := do
  let (start, _) ← (Text.byteStarts 0 haystack)[offset]?
  let (_, tail) ← Text.divideAt? start haystack
  let found ← Text.firstByte? needle tail
  let (between, _) ← Text.divideAt? found tail
  pure (offset + between.length)

/-- The arguments of a joining helper, which come in either order. -/
def gluing (first : Value) (second : Option Value) : Chars × Value :=
  match second with
  | Option.none => ([], first)
  | some second => if first.isArray then (second.legacyText, first) else (first.legacyText, second)

/-- The values of a collection as texts, joined. -/
def glued (first : Value) (second : Option Value) : Except RenderError Value := do
  let (glue, pieces) := gluing first second
  let values ← pieces.values
  pure (.ofChars (Text.join glue (values.map Value.legacyText)))

/-- A text cut at a separator. -/
def cutAt (separator text : Chars) (limit : Option Int) : Except RenderError Value :=
  if separator = [] then
    .error { kind := .invalidOperation
             detail := some "explode(): separator cannot be empty".toList }
  else .ok (.ofTexts (Text.splitLimited text separator limit))

/-- The values that an extreme is sought among: the arguments, or those of a single collection. -/
def candidates (args : List Value) : Except RenderError (List Value) :=
  match args with
  | [single] => if single.isArray then single.values else .ok args
  | _ => .ok args

/-- The first value that none after it goes beyond in the wanted direction. -/
def extreme (wanted : Ordering) : List Value → Except RenderError Value
  | [] =>
    .error { kind := .missingArgument, detail := some "min()/max() need at least one value".toList }
  | v :: vs => .ok (vs.foldl (fun best item => if Value.cmp item best = wanted then item else best) v)

theorem extreme_single (wanted : Ordering) (v : Value) : extreme wanted [v] = .ok v := rfl

/-- A number with fixed places and separators. -/
def formatted (v : Value) (places : Option Nat) (point thousands : Option Chars) : Value :=
  .ofChars (formatNumber v.toFloat (places.getD 0) (point.getD ['.']) (thousands.getD [',']))

/-- A value with a break element before every line break; what is not safe is escaped first. -/
def withBreaks (v : Value) : Value :=
  let markup := if v.isSafe then v.legacyText else Html.escape v.legacyText
  .safeText (Html.breakLines markup)

/-- A value as JSON markup. -/
def jsonMarkup (v : Value) : Except RenderError Value :=
  match v.jsonText? with
  | some s => .ok (.safeText s)
  | Option.none => .error Value.invalid

/-- A date in a format. -/
def formatDate (format : Chars) (v : Value) : Except RenderError Value :=
  match Instant.read? v.legacyText with
  | some t => .ok (.ofChars (t.format format))
  | Option.none =>
    .error { kind := .invalidOperation
             detail := some ("cannot interpret ".toList ++ Text.quoted v.legacyText ++
               " as a date".toList) }

/-- A constant of the project. -/
def constantOf (constants : List (Chars × Value)) (key : Chars) : Except RenderError Value :=
  match constants.lookup key with
  | some v => .ok v
  | Option.none =>
    .error { kind := .invalidOperation, detail := some ("undefined constant ".toList ++ key) }

open Arguments

/-- A helper that takes one value. -/
def unary (f : Value → Except RenderError Value) : Arguments Value := do
  let v ← required any
  done
  f v

/-- A helper that takes one value and always answers. -/
def plain (f : Value → Value) : Arguments Value := unary fun v => .ok (f v)

/-- A helper that takes one text and makes a text of it. -/
def textual (f : Chars → Chars) : Arguments Value := plain fun v => .ofChars (f v.legacyText)

/-- A helper that takes one number. -/
def numeral (f : Float → Float) : Arguments Value := plain fun v => .number (f v.toFloat)

/-- A helper's reading of its arguments, with its answer. -/
def reading (c : HelperContext) : Helper → Arguments Value
  | constant => do
    let key ← required printed
    done
    constantOf c.constants key
  | defined => do
    let key ← required printed
    done
    pure (.bool (c.constants.lookup key).isSome)
  | autoExt => plain (fileName c.extension)
  | isset => plain fun v => .bool !v.isMissing
  | empty => plain fun v => .bool (isEmpty v)
  | count => plain fun v => .ofNat (size v)
  | isArray => plain fun v => .bool v.isArray
  | isNull => plain fun v => .bool v.isMissing
  | inArray => do
    let needle ← required any
    let haystack ← required any
    done
    let values ← haystack.values
    pure (.bool (values.any fun v => v.same needle))
  | arrayKeyExists => do
    let key ← required any
    let v ← required any
    done
    pure (.bool (hasKey key v))
  | strlen => plain fun v => .ofNat (Text.utf8 v.legacyText).length
  | substr => do
    let s ← legacyText
    let start ← required int64
    let length ← optional int64
    done
    pure (.ofChars (Text.part s start length))
  | strpos => do
    let haystack ← legacyText
    let needle ← legacyText
    let offset ← optional (natural 64)
    done
    pure (match position? haystack needle (offset.getD 0) with
      | some i => .ofNat i
      | Option.none => .bool false)
  | strtolower => textual Text.lower
  | strtoupper => textual Text.upper
  | ucfirst => textual Text.capitalFirst
  | trim => do
    let s ← legacyText
    let chars ← optional printed
    done
    pure (.ofChars (Text.trim s chars))
  | stripTags => do
    let s ← legacyText
    let allowed ← optional printed
    done
    pure (.ofChars (match allowed with
      | some allowed => Html.stripTagsAllowing s allowed
      | Option.none => Html.stripTags s))
  | addslashes => plain fun v => .safeText (Text.addSlashes v.legacyText)
  | implode | join => do
    let first ← required any
    let second ← optional any
    done
    glued first second
  | explode => do
    let separator ← legacyText
    let s ← legacyText
    let limit ← optional int64
    done
    cutAt separator s limit
  | numberFormat => do
    let v ← required any
    let places ← optional (natural 64)
    let point ← optional printed
    let thousands ← optional printed
    done
    pure (formatted v places point thousands)
  | round => do
    let v ← required any
    let places ← optional int32
    done
    pure (.number (roundHalfAway v.toFloat (places.getD 0)))
  | ceil => numeral (Binary.whole .ceil)
  | floor => numeral (Binary.whole .floor)
  | abs => numeral Binary.abs
  | min => do
    let args ← remaining
    let values ← candidates args
    extreme .lt values
  | max => do
    let args ← remaining
    let values ← candidates args
    extreme .gt values
  | intval => plain fun v => .int v.toInt
  | floatval => numeral id
  | jsonEncode => unary jsonMarkup
  | nl2br => plain withBreaks
  | htmlspecialchars => plain fun v => .safeText (Html.escape v.legacyText)
  | urlencode => textual Text.formEncode
  | date => do
    let format ← required printed
    let moment ← optional any
    done
    match moment with
    | some v => formatDate format v
    | Option.none => pure (.ofChars (c.now.format format))
  | time => do
    done
    pure (.int c.now.secs)
  | array => Value.seq <$> remaining

/-- The answer of a helper to its arguments. -/
def call (c : HelperContext) (h : Helper) (args : List Value) : Except RenderError Value :=
  (reading c h).run args

end Helper
end ViewBridge
