import ViewBridge.Error
import ViewBridge.Text.Case
/-!
# Target dialects

Translated templates are written in one of two dialects that share most of their syntax. Every construct
in which they differ is written here: verbatim blocks, includes, loops, the word for a further condition and
the filter that marks output as raw.

Results:
* `operand_eq`: an expression is parenthesised exactly when it has a blank or a bar.
* `filterOf?_mem`: the filters that calls are written as.
* `ofName?_name`: the name of a dialect names it.
-/
namespace ViewBridge

/-- The dialects a translated template can be written in. -/
inductive Dialect where
  | twig
  | minijinja
deriving DecidableEq, Repr, Inhabited

/-- An expression in parentheses where it would not stand as one operand. -/
def operand (e : Chars) : Chars :=
  if e.any fun c => Text.isBlank c || c == '|' then '(' :: e ++ [')'] else e

namespace Dialect

/-- An output tag around an expression. -/
def output (e : Chars) : Chars := "\x7b\x7b ".toList ++ e ++ " \x7d\x7d".toList

/-- A statement tag. -/
def tag (statement : Chars) : Chars := "\x7b% ".toList ++ statement ++ " %\x7d".toList

/-- A comment, its body between single spaces. -/
def comment (body : Chars) : Chars := "\x7b# ".toList ++ body ++ " #\x7d".toList

/-- The name of a dialect. -/
def name : Dialect → Chars
  | twig => "twig".toList
  | minijinja => "minijinja".toList

/-- The dialect a name stands for, letter case aside. -/
def ofName? (s : Chars) : Option Dialect :=
  let s := Text.lower s
  if s = "twig".toList then some twig
  else if s = "minijinja".toList ∨ s = "jinja".toList ∨ s = "mj".toList then some minijinja
  else none

/-- The dialect a name stands for; the complaint about any other name shows it in lower case. -/
def ofName (s : Chars) : Except Error Dialect :=
  match ofName? s with
  | some d => .ok d
  | none => .error (.config (.unknownTarget (Text.lower s)))

theorem ofName?_name (d : Dialect) : ofName? d.name = some d := by
  cases d <;> rfl

/-- A block whose body the engine copies. -/
def verbatim (d : Dialect) (body : Chars) : Chars :=
  match d with
  | twig => tag "verbatim".toList ++ body ++ tag "endverbatim".toList
  | minijinja => tag "raw".toList ++ body ++ tag "endraw".toList

/-- An include of a file whose name is known. -/
def includeLiteral (d : Dialect) (file : Chars) : Chars :=
  match d with
  | twig => output ("include('".toList ++ file ++ "')".toList)
  | minijinja => tag ("include '".toList ++ file ++ "'".toList)

/-- An include of a file whose name an expression gives. -/
def includeDynamic (d : Dialect) (e : Chars) : Chars :=
  match d with
  | twig => output ("include(auto_ext(".toList ++ e ++ "))".toList)
  | minijinja => tag ("include auto_ext(".toList ++ e ++ ")".toList)

/-- A loop over keys and values. -/
def forPair (d : Dialect) (key value collection : Chars) : Chars :=
  let head := "for ".toList ++ key ++ ", ".toList ++ value ++ " in ".toList
  match d with
  | twig => tag (head ++ collection)
  | minijinja => tag (head ++ operand collection ++ "|legacy_pairs".toList)

/-- A loop over values, also over those of a map. -/
def forSingle (d : Dialect) (value collection : Chars) : Chars :=
  let head := "for ".toList ++ value ++ " in ".toList
  match d with
  | twig => tag (head ++ collection)
  | minijinja => tag (head ++ operand collection ++ "|legacy_values".toList)

/-- The last argument of `range` for a counting loop: one dialect includes it, the other does not. -/
def upperBound (d : Dialect) (last : Chars) (inclusive : Bool) : Chars :=
  let last := operand last
  match d, inclusive with
  | twig, true => last
  | minijinja, false => last
  | twig, false => last ++ " - 1".toList
  | minijinja, true => last ++ " + 1".toList

/-- A counting loop from `first` to `last`. -/
def forRange (d : Dialect) (var first last : Chars) (inclusive : Bool) : Chars :=
  tag ("for ".toList ++ var ++ " in range(".toList ++ first ++ ", ".toList ++
    d.upperBound last inclusive ++ ")".toList)

/-- The word for a further condition. -/
def elseifKeyword : Dialect → Chars
  | twig => "elseif".toList
  | minijinja => "elif".toList

/-- The filter that marks output as raw. -/
def rawFilter : Dialect → Chars
  | twig => "raw".toList
  | minijinja => "safe".toList

/-- Output that is not escaped. -/
def rawOutput (d : Dialect) (e : Chars) : Chars := output (e ++ '|' :: d.rawFilter)

/-- The filters that stand for a one-argument call of a helper. -/
def filterOf? (d : Dialect) (helper : Chars) : Option Chars :=
  if helper = "htmlspecialchars".toList then some "escape".toList
  else if helper = "strip_tags".toList then some "striptags".toList
  else if helper = "nl2br".toList then some "nl2br".toList
  else if helper = "urlencode".toList then some "url_encode".toList
  else if helper = "json_encode".toList then
    match d with
    | twig => some "json_encode|raw".toList
    | minijinja => some "tojson".toList
  else if helper = "addslashes".toList then
    match d with
    | twig => some "escape('js')".toList
    | minijinja => some "addslashes".toList
  else none

/-- A one-argument call of a helper, written as a filter if there is one for it. -/
def filterForm? (d : Dialect) (helper arg : Chars) : Option Chars :=
  (d.filterOf? helper).map fun filter => output (operand arg ++ '|' :: filter)

/-- The filters that calls of helpers are written as. -/
def filters : List String :=
  ["escape", "striptags", "nl2br", "url_encode", "json_encode|raw", "tojson", "escape('js')", "addslashes"]

theorem filterOf?_mem {d : Dialect} {helper filter : Chars} (h : d.filterOf? helper = some filter) :
    filter ∈ filters.map String.toList := by
  simp only [filters, List.map_cons, List.map_nil, List.mem_cons]
  unfold filterOf? at h
  repeat' split at h
  all_goals simp only [Option.some.injEq, reduceCtorEq] at h
  all_goals simp only [h, true_or, or_true]

end Dialect

theorem operand_eq (e : Chars) :
    operand e = e ∧ (∀ c ∈ e, Text.isBlank c = false ∧ c ≠ '|') ∨
    operand e = '(' :: e ++ [')'] ∧ ∃ c ∈ e, Text.isBlank c = true ∨ c = '|' := by
  unfold operand
  split
  · rename_i h
    obtain ⟨c, hc, h⟩ := List.any_eq_true.1 h
    exact .inr ⟨rfl, c, hc, by simpa using h⟩
  · rename_i h
    refine .inl ⟨rfl, fun c hc => ?_⟩
    have := mt (fun h' => List.any_eq_true.2 ⟨c, hc, h'⟩) h
    simpa using this

end ViewBridge
