import ViewBridge.Directive.Loop
import ViewBridge.Directive.Call
import ViewBridge.Directive.Assignment
import ViewBridge.FilterName
import ViewBridge.Expression
/-!
# What each directive becomes

One function for each directive: what it holds in, target text out. The dialect and the default extension
come from the translator; a loop also needs the depth at which it opens.
-/
namespace ViewBridge

/-- A translator: the dialect it writes and the extension of includes that have none. -/
structure Translator where
  dialect : Dialect
  extension : Chars := "html".toList
deriving DecidableEq, Repr

namespace Translator

/-- The translator with another default extension; leading dots are dropped. -/
def withExtension (t : Translator) (extension : Chars) : Translator :=
  { t with extension := extension.dropWhile (· == '.') }

/-- An include. A name that starts with a sigil is an expression; any dot in a name counts as an extension. -/
def emitInclude (t : Translator) (file : Chars) : Chars :=
  if file.head? = some '$' then t.dialect.includeDynamic (Expression.translate file)
  else if file.contains '.' then t.dialect.includeLiteral file
  else t.dialect.includeLiteral (file ++ '.' :: t.extension)

/-- The names that a loop without bindings gives the element at some depth. -/
def numbered (name : String) (depth : Int) : Chars := name.toList ++ Text.ofInt depth

/-- A loop that opens at `depth`. Without bindings the element is also called `value` and its key `key`. -/
def emitLoop (t : Translator) (depth : Int) (h : Directive.LoopHeader) : Chars :=
  match Directive.readCounting h.collection with
  | some c => t.dialect.forRange c.var c.first (Expression.translate c.last) c.inclusive
  | none =>
    let collection := Expression.translate h.collection
    match h.key.map Directive.bindingName, h.value.map Directive.bindingName with
    | some key, some value => t.dialect.forPair key value collection
    | some value, none => t.dialect.forSingle value collection
    | none, _ =>
      let key := numbered "key" depth
      let value := numbered "value" depth
      t.dialect.forPair key value collection ++ Dialect.tag ("set value = ".toList ++ value) ++
        Dialect.tag ("set key = ".toList ++ key)

/-- An opening condition. -/
def emitIf (condition : Chars) : Chars :=
  Dialect.tag ("if ".toList ++ Expression.translate condition)

/-- A further condition. -/
def emitElseif (t : Translator) (condition : Chars) : Chars :=
  Dialect.tag (t.dialect.elseifKeyword ++ ' ' :: Expression.translate condition)

/-- A variable: an assignment if it reads as one, else raw output. -/
def emitVariable (t : Translator) (body : Chars) : Chars :=
  let e := Expression.translate body
  match Directive.readAssignment e with
  | some a =>
    let joined := match a.operator with
      | none => []
      | some op => a.name ++ [' ', if op = '.' then '~' else op, ' ']
    Dialect.tag ("set ".toList ++ a.name ++ " = ".toList ++ joined ++ a.value)
  | none => t.dialect.rawOutput (FilterName.translate t.dialect e)

/-- A function. A plain call with one argument is written as a filter if the dialect has one for it. -/
def emitFunction (t : Translator) (body : Chars) : Chars :=
  match Directive.readFunctionBody body with
  | .method object chain args =>
    t.dialect.rawOutput ('(' :: object ++ chain.flatMap (fun m => '.' :: m) ++
      '(' :: Expression.translate args ++ "))".toList)
  | .call name args =>
    let args := match args with
      | some args => Expression.translate args
      | none => []
    let filtered := if args ≠ [] ∧ ¬ Directive.hasTopComma {} args then
        t.dialect.filterForm? name args else none
    filtered.getD (t.dialect.rawOutput ('(' :: name ++ '(' :: args ++ "))".toList))
  | .other => t.dialect.rawOutput ('(' :: Expression.translate body ++ [')'])

/-- A constant. -/
def emitConstant (name : Chars) : Chars :=
  Dialect.output ("constant('".toList ++ name ++ "')".toList)

end Translator
end ViewBridge
