import ViewBridge.Helper.Call
import ViewBridge.Json.Pretty
import ViewBridge.Template.Escaping
import ViewBridge.Template.Test
import ViewBridge.Template.Filter.Text
import ViewBridge.Template.Filter.Collection
/-!
# Filters

What templates can pipe a value through. A filter takes the piped value as its first argument, and some take
options by name after all others. The legacy filters take texts loosely and know dates and markup; the others
are those every template language has. A filter can be applied to every item of a collection, and a test can
select some of them.

Results:
* `find?_raw`: there is a filter that marks output as raw.
* `apply_unknown`: no other name is that of a filter.
-/
namespace ViewBridge.Template.Filter

open Arguments Helper

/-! ## Options -/

/-- The options of a call, by name. -/
abbrev Options := List (Chars × Value)

namespace Options

/-- An option in a form, if it is given and not missing. -/
def get? {α : Type} (form : Form α) (o : Options) (name : String) : Except RenderError (Option α) :=
  match o.lookup name.toList with
  | some v => if v.isMissing then .ok none else (form v).map some
  | none => .ok none

/-- The end of the options: only those known may be given. -/
def only (o : Options) (known : List String) : Except RenderError Unit :=
  if o.all fun entry => known.any fun k => k.toList == entry.1 then .ok ()
  else .error { kind := .tooManyArguments }

/-- The options as arguments of what takes none: one map after the others. -/
def asArguments (o : Options) : List Value := if o = [] then [] else [.ofNamed o]

end Options

/-- A truth value. -/
def truth : Form Bool := fun v =>
  match v with
  | .bool b => .ok b
  | _ => .error Value.invalid

/-- A text, and nothing that is only printed as one. -/
def name : Form Chars := fun v =>
  match v with
  | .text _ s => .ok s
  | _ => .error Value.invalid

/-! ## Values -/

/-- The magnitude of a number. -/
def abs (v : Value) : Except RenderError Value :=
  match v with
  | .int n => Value.exact n.natAbs
  | .float x => .ok (.float (Binary.abs x))
  | _ => .error Value.invalid

/-- A double rounded to decimal places; integers are left alone. -/
def round (v : Value) (places : Int) : Except RenderError Value :=
  match v with
  | .int n => .ok (.int n)
  | .float x =>
    let scale := tenPower places
    .ok (.float (Binary.whole .halfAway (scale * x) / scale))
  | _ => .error Value.invalid

/-- A character of JSON that must not stand in markup, as an escape. -/
def markupEscape (c : Char) : Chars :=
  if c = '<' then "\\u003c".toList
  else if c = '>' then "\\u003e".toList
  else if c = '&' then "\\u0026".toList
  else if c = '\x27' then "\\u0027".toList
  else [c]

/-- How far JSON is indented: not at all, by two blanks, or by a number of them. -/
def indentation : Form (Option Nat) := fun v =>
  match v with
  | .bool b => .ok (if b then some 2 else none)
  | v => (natural 64 v).map some

/-- A value as JSON that may stand in markup, on one line or indented. -/
def jsonInMarkup (v : Value) (indent : Option Nat) : Except RenderError Value :=
  match v.toJson? with
  | some doc =>
    let s := match indent with
      | some width => doc.pretty width 0
      | none => doc.render
    .ok (.safeText (s.flatMap markupEscape))
  | none => .error { kind := .notSerializable }

/-- A value escaped for the document it stands in; plain text is escaped as markup. -/
def escape (mode : Escaping) (v : Value) : Except RenderError Value :=
  if v.isSafe then .ok v
  else
    match (if mode = .plain then Escaping.markup else mode).write v with
    | .ok s => .ok (.safeText s)
    | .error kind => .error { kind }

/-- A value, or another one in its place if it is undefined or, when asked for, not true. -/
def default : Arguments Value := do
  let v ← required any
  let other ← optional any
  let lax ← optional truth
  done
  let replaced := match v with
    | .undefined => true
    | v => lax.getD false && !v.isTrue
  pure (if replaced then other.getD (.ofChars []) else v)

/-- A text cut at a delimiter; an empty one cuts between all characters. -/
def split : Arguments Value := do
  let s ← legacyText
  let delimiter ← required printed
  let limit ← optional int64
  done
  pure (.ofTexts (if delimiter = [] then s.map fun c => [c] else Text.splitLimited s delimiter limit))

/-- The format of dates when none is given. -/
def dateFormat : Chars := "F j, Y H:i".toList

/-- A date in a format. -/
def date : Arguments Value := do
  let v ← required any
  let format ← optional printed
  done
  formatDate (format.getD dateFormat) v

/-- A number with fixed places. -/
def numberFormat : Arguments Value := do
  let v ← required any
  let places ← optional (natural 64)
  let point ← optional printed
  let thousands ← optional printed
  done
  pure (formatted v places point thousands)

/-- A value marked as markup. -/
def raw (v : Value) : Value := if v.isSafe then v else .safeText v.legacyText

/-- The value as a text; a text is itself. -/
def string (v : Value) : Value :=
  match v with
  | .text .. => v
  | v => .ofChars v.print

/-- A filter on the items of a value, cut into lists of a number. -/
def cutting (cut : Nat → Option Value → List Value → List Value) : Arguments Value := do
  let v ← required any
  let count ← required (natural 64)
  let filler ← optional any
  done
  if count = 0 then refused
  else return .seq (cut count filler (← walk v))

/-- The filters without options, by name; `mode` is the escaping of the template that uses them. -/
def table (mode : Escaping) : List (String × Arguments Value) :=
  [("legacy_pairs", unary fun v => v.pairs.map .seq),
    ("legacy_values", unary fun v => v.values.map .seq),
    ("keys", unary fun v => v.keys.map .seq),
    ("values", unary fun v => v.values.map .seq),
    ("nl2br", plain withBreaks),
    ("striptags", textual Html.stripTags),
    ("number_format", numberFormat),
    ("floor", numeral (Binary.whole .floor)),
    ("ceil", numeral (Binary.whole .ceil)),
    ("date", date),
    ("split", split),
    ("url_encode", textual Text.formEncode),
    ("addslashes", plain fun v => .safeText (Text.addSlashes v.legacyText)),
    ("json_encode", unary jsonMarkup),
    ("raw", plain raw),
    ("safe", do
      let s ← required printed
      done
      pure (.safeText s)),
    ("escape", unary (escape mode)),
    ("e", unary (escape mode)),
    ("upper", onText Text.upper),
    ("lower", onText Text.lower),
    ("capitalize", onText capitalize),
    ("title", onText title),
    ("trim", do
      let s ← required printed
      let chars ← optional printed
      done
      pure (.ofChars (trim s chars))),
    ("replace", do
      let s ← required printed
      let old ← required printed
      let new ← required printed
      done
      pure (.ofChars (replaceAll old new s))),
    ("lines", do
      let s ← required printed
      done
      pure (.ofTexts (lines s))),
    ("indent", do
      let s ← required printed
      let width ← required (natural 64)
      let first ← optional truth
      let blank ← optional truth
      done
      pure (.ofChars (indent s width (first.getD false) (blank.getD false)))),
    ("length", unary length),
    ("count", unary length),
    ("reverse", unary reverse),
    ("first", unary first),
    ("last", unary last),
    ("min", unary fun v => (walk v).map least),
    ("max", unary fun v => (walk v).map greatest),
    ("sum", unary fun v => (walk v).bind sum),
    ("list", unary fun v => (walk v).map .seq),
    ("batch", cutting batch),
    ("slice", cutting parts),
    ("join", do
      let v ← required any
      let separator ← optional printed
      done
      join v separator),
    ("items", unary items),
    ("attr", do
      let v ← required any
      let key ← required any
      done
      match v with
      | .undefined => throw { kind := .undefinedValue }
      | v => pure (v.item key)),
    ("default", default),
    ("d", default),
    ("abs", unary abs),
    ("round", do
      let v ← required any
      let places ← optional int32
      done
      round v (places.getD 0)),
    ("int", unary toWhole),
    ("float", unary toDouble),
    ("string", plain string),
    ("bool", plain fun v => .bool v.isTrue)]

/-- Sort items, by an attribute if one is named. -/
def sort (o : Options) : Arguments Value := do
  let v ← required any
  done
  let items ← walk v
  let caseMatters ← o.get? truth "case_sensitive"
  let path ← o.get? name "attribute"
  let keyed ← keyedBy (if items.length < 2 then none else path) items
  let sorted := sortKeyed (caseMatters.getD false) keyed
  let backwards ← o.get? truth "reverse"
  o.only ["case_sensitive", "attribute", "reverse"]
  pure (.seq (if backwards = some true then sorted.reverse else sorted))

/-- Sort the members of a map by their keys or values. -/
def sortMembers (o : Options) : Arguments Value := do
  let v ← required any
  done
  match v with
  | .map members =>
    let column ← o.get? name "by"
    let caseMatters ← o.get? truth "case_sensitive"
    let keyed := members.map fun m =>
      (if column = some "value".toList then m.2 else m.1, Value.pairOf m.1 m.2)
    let sorted := sortKeyed (caseMatters.getD false) keyed
    let backwards ← o.get? truth "reverse"
    o.only ["by", "case_sensitive", "reverse"]
    pure (.seq (if backwards = some true then sorted.reverse else sorted))
  | _ => refused

/-- Keep the first of the items with equal keys. -/
def unique (o : Options) : Arguments Value := do
  let v ← required any
  done
  let path ← o.get? name "attribute"
  let caseMatters ← o.get? truth "case_sensitive"
  o.only ["attribute", "case_sensitive"]
  let keyed ← keyedBy path (← walk v)
  pure (.seq (distinct (caseMatters.getD false) [] keyed))

/-- Group items by an attribute, in its order; every group is a pair of the attribute and the items. -/
def groupBy (o : Options) : Arguments Value := do
  let v ← required any
  let path ← optional name
  done
  let default ← o.get? any "default"
  let caseMatters ← o.get? truth "case_sensitive"
  let path ← match path with
    | some path => pure path
    | none =>
      match ← o.get? name "attribute" with
      | some path => pure path
      | none => throw { kind := .missingArgument }
  let keyed ← keyedBy (some path) (← walk v)
  o.only ["default", "case_sensitive", "attribute"]
  let orDefault (key : Value) : Value := match key with
    | .undefined => default.getD .undefined
    | key => key
  let keyed := keyed.map fun (key, v) => (orDefault key, v)
  let sorted := sortKeyed (caseMatters.getD false) (keyed.map fun entry => (entry.1, entry))
  let groups := grouped (caseMatters.getD false) sorted
  pure (.seq (groups.map fun g => Value.pairOf g.1 (.seq g.2)))

/-- Write JSON, indented by an argument or an option. -/
def toJson (o : Options) : Arguments Value := do
  let v ← required any
  let argument ← optional any
  done
  let option ← o.get? any "indent"
  o.only (if argument.isSome then [] else ["indent"])
  match argument.or option with
  | some width => jsonInMarkup v (← indentation width)
  | none => jsonInMarkup v none

/-- The attribute of every item, or another value where there is none. -/
def attributes (o : Options) (path : Value) : Arguments Value := do
  let v ← required any
  done
  let default := (o.lookup "default".toList).getD .undefined
  let get (item : Value) : Except RenderError Value :=
    match path with
    | .text _ path => follow path item
    | key =>
      match item with
      | .undefined => .error { kind := .undefinedValue }
      | item => .ok (item.item key)
  let orDefault (item : Value) : Except RenderError Value :=
    match get item with
    | .ok .undefined => .ok default
    | .ok found => .ok found
    | .error e => if default.kind = .undefined then .error e else .ok default
  let items ← walk v
  let found ← (items.mapM orDefault : Except RenderError (List Value))
  pure (.seq found)

/-- The items that pass a test, or are true if none is named; `wanted` is the outcome that keeps an item, and
`onAttribute` says whether an attribute is tested in its place. -/
def select (knownFilter : Chars → Bool) (wanted onAttribute : Bool) : Arguments Value := do
  let v ← required any
  let path ← if onAttribute then some <$> required printed else pure none
  let test ← optional printed
  let args ← remaining
  match test with
  | some test => if (Test.find? knownFilter test).isNone then throw { kind := .unknownTest }
  | none => pure ()
  let keyed ← keyedBy path (← walk v)
  let kept ← keyed.filterM fun entry =>
    (match test with
      | some test => Test.apply knownFilter test (entry.1 :: args)
      | none => .ok entry.1.isTrue).map (· == wanted)
  pure (.seq (kept.map (·.2)))

/-- The filters with options, by name. -/
def optionTable : List (String × (Options → Arguments Value)) :=
  [("sort", sort),
    ("dictsort", sortMembers),
    ("unique", unique),
    ("groupby", groupBy),
    ("tojson", toJson)]

/-- The names of the filters that look up other filters or tests. -/
def higherNames : List String := ["map", "select", "reject", "selectattr", "rejectattr"]

/-- The filter with a name, among those without options. -/
def find? (mode : Escaping) (name : Chars) : Option (Arguments Value) :=
  ((table mode).find? fun entry => entry.1.toList == name).map (·.2)

/-- The filter with a name, among those with options. -/
def findWithOptions? (name : Chars) : Option (Options → Arguments Value) :=
  (optionTable.find? fun entry => entry.1.toList == name).map (·.2)

theorem find?_raw (mode : Escaping) : find? mode "raw".toList = some (plain raw) := rfl

/-- Whether a name is that of a filter. -/
def isKnown (name : Chars) : Bool :=
  (find? .plain name).isSome || (findWithOptions? name).isSome ||
    higherNames.any fun n => n.toList == name

/-- The result of piping a value through a filter; the arguments start with the value. Applying a filter to
every item of the value takes its name off the arguments, which therefore run out. -/
def apply (mode : Escaping) (name : Chars) (args : List Value) (o : Options) : Except RenderError Value :=
  match find? mode name with
  | some reading => reading.run (args ++ o.asArguments)
  | none =>
    match findWithOptions? name with
    | some reading => (reading o).run args
    | none =>
      if name = "map".toList then
        match o.lookup "attribute".toList, args with
        | _, [] => .error { kind := .missingArgument }
        | some path, args => (attributes o path).run args
        | none, [_] => .error Value.invalid
        | none, v :: .text _ filter :: rest => do
          if !isKnown filter then .error { kind := .unknownFilter }
          else
            let results ← (← walk v).mapM fun item => apply mode filter (item :: rest) []
            pure (.seq results)
        | none, _ => .error Value.invalid
      else if name = "select".toList then (select isKnown true false).run (args ++ o.asArguments)
      else if name = "reject".toList then (select isKnown false false).run (args ++ o.asArguments)
      else if name = "selectattr".toList then (select isKnown true true).run (args ++ o.asArguments)
      else if name = "rejectattr".toList then (select isKnown false true).run (args ++ o.asArguments)
      else .error { kind := .unknownFilter }
termination_by args.length

theorem apply_unknown {mode : Escaping} {name : Chars} (args : List Value) (o : Options)
    (hp : find? mode name = none) (ho : findWithOptions? name = none)
    (hh : ∀ n ∈ higherNames, name ≠ n.toList) :
    apply mode name args o = .error { kind := .unknownFilter } := by
  unfold apply
  simp only [hp, ho]
  rw [if_neg (hh _ (by simp [higherNames])), if_neg (hh _ (by simp [higherNames])),
    if_neg (hh _ (by simp [higherNames])), if_neg (hh _ (by simp [higherNames])),
    if_neg (hh _ (by simp [higherNames]))]

end ViewBridge.Template.Filter
