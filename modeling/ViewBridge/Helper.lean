import ViewBridge.Text.Basic
/-!
# Legacy helper functions

The functions that legacy templates may call by name, and nothing else. Which of them a project exposes is a
matter of its configuration.

Results:
* `mem_all`: the list of helpers is complete.
* `ofName?_name`: the name of a helper names it.
-/
namespace ViewBridge

/-- The helper functions of legacy templates. -/
inductive Helper where
  | constant
  | defined
  | autoExt
  | isset
  | empty
  | count
  | isArray
  | isNull
  | inArray
  | arrayKeyExists
  | strlen
  | substr
  | strpos
  | strtolower
  | strtoupper
  | ucfirst
  | trim
  | stripTags
  | addslashes
  | implode
  | join
  | explode
  | numberFormat
  | round
  | ceil
  | floor
  | abs
  | min
  | max
  | intval
  | floatval
  | jsonEncode
  | nl2br
  | htmlspecialchars
  | urlencode
  | date
  | time
  | array
deriving DecidableEq, Repr

namespace Helper

/-- Every helper. -/
def all : List Helper :=
  [constant, defined, autoExt, isset, empty, count, isArray, isNull, inArray, arrayKeyExists, strlen,
    substr, strpos, strtolower, strtoupper, ucfirst, trim, stripTags, addslashes, implode, join, explode,
    numberFormat, round, ceil, floor, abs, min, max, intval, floatval, jsonEncode, nl2br,
    htmlspecialchars, urlencode, date, time, array]

theorem mem_all (h : Helper) : h ∈ all := by cases h <;> decide

/-- The name that templates call a helper by. -/
def name : Helper → Chars
  | constant => "constant".toList
  | defined => "defined".toList
  | autoExt => "auto_ext".toList
  | isset => "isset".toList
  | empty => "empty".toList
  | count => "count".toList
  | isArray => "is_array".toList
  | isNull => "is_null".toList
  | inArray => "in_array".toList
  | arrayKeyExists => "array_key_exists".toList
  | strlen => "strlen".toList
  | substr => "substr".toList
  | strpos => "strpos".toList
  | strtolower => "strtolower".toList
  | strtoupper => "strtoupper".toList
  | ucfirst => "ucfirst".toList
  | trim => "trim".toList
  | stripTags => "strip_tags".toList
  | addslashes => "addslashes".toList
  | implode => "implode".toList
  | join => "join".toList
  | explode => "explode".toList
  | numberFormat => "number_format".toList
  | round => "round".toList
  | ceil => "ceil".toList
  | floor => "floor".toList
  | abs => "abs".toList
  | min => "min".toList
  | max => "max".toList
  | intval => "intval".toList
  | floatval => "floatval".toList
  | jsonEncode => "json_encode".toList
  | nl2br => "nl2br".toList
  | htmlspecialchars => "htmlspecialchars".toList
  | urlencode => "urlencode".toList
  | date => "date".toList
  | time => "time".toList
  | array => "array".toList

/-- The helper with a name. -/
def ofName? (s : Chars) : Option Helper := all.find? fun h => h.name == s

theorem ofName?_name (h : Helper) : ofName? h.name = some h := by
  have every : ∀ g ∈ all, ofName? g.name = some g := by decide +kernel
  exact every h (mem_all h)

theorem ofName?_eq_some {s : Chars} {h : Helper} (hs : ofName? s = some h) : h.name = s := by
  simpa using List.find?_some hs

end Helper
end ViewBridge
