import ViewBridge.Text.Basic
/-!
# Errors

Every way in which this library can fail, as a cause; `Error.message` is the one place where causes become
words.

Results:
* `RenderError.message_of_detail_none`: an error without a detail of its own is told by its kind alone.
-/
namespace ViewBridge

/-- What can go wrong with a file. -/
inductive FileError where
  | notFound
  | isDirectory
  | notDirectory
  | invalidUtf8
deriving DecidableEq, Repr

/-- The wording of a file error. -/
def FileError.message : FileError → Chars
  | .notFound => "No such file or directory (os error 2)".toList
  | .isDirectory => "Is a directory (os error 21)".toList
  | .notDirectory => "Not a directory (os error 20)".toList
  | .invalidUtf8 => "stream did not contain valid UTF-8".toList

/-- What is wrong with a configuration. -/
inductive ConfigError where
  | unknownTarget (name : Chars)
  | newerVersion (version : Nat)
  | noFolders
  | emptyExtension
  | wrongDialect (needed got : Chars)
deriving DecidableEq, Repr

/-- The wording of a configuration error. -/
def ConfigError.message : ConfigError → Chars
  | .unknownTarget name => "unknown target: ".toList ++ name
  | .newerVersion version =>
    "config version ".toList ++ Text.ofNat version ++ " is newer than supported version 1".toList
  | .noFolders => "views.folders must name at least one folder".toList
  | .emptyExtension => "translation.default_extension must not be empty".toList
  | .wrongDialect needed got =>
    "the render engine needs a ".toList ++ needed ++ " translator, got ".toList ++ got

/-- The kinds of failure of a template that is compiled or rendered. -/
inductive RenderErrorKind where
  | invalidOperation
  | syntaxError
  | templateNotFound
  | tooManyArguments
  | missingArgument
  | unknownFilter
  | unknownTest
  | unknownFunction
  | unknownMethod
  | badEscape
  | badInclude
  | cannotUnpack
  | undefinedValue
  | notSerializable
deriving DecidableEq, Repr

/-- The name of a kind of failure. -/
def RenderErrorKind.name : RenderErrorKind → Chars
  | .invalidOperation => "invalid operation".toList
  | .syntaxError => "syntax error".toList
  | .templateNotFound => "template not found".toList
  | .tooManyArguments => "too many arguments".toList
  | .missingArgument => "missing argument".toList
  | .unknownFilter => "unknown filter".toList
  | .unknownTest => "unknown test".toList
  | .unknownFunction => "unknown function".toList
  | .unknownMethod => "unknown method".toList
  | .badEscape => "bad string escape".toList
  | .badInclude => "could not render include".toList
  | .cannotUnpack => "cannot unpack".toList
  | .undefinedValue => "undefined value".toList
  | .notSerializable => "could not serialize to value".toList

/-- A place in a template. -/
structure Place where
  template : Chars
  line : Nat
deriving DecidableEq, Repr

/-- A failure of a template: its kind, what a helper had to say about it, and where it happened. -/
structure RenderError where
  kind : RenderErrorKind
  detail : Option Chars := none
  place : Option Place := none
deriving DecidableEq, Repr

namespace RenderError

/-- The same failure at a place, unless it already has one. -/
def at_ (e : RenderError) (place : Place) : RenderError :=
  { e with place := e.place.or (some place) }

/-- The wording of a failure. A failure without a detail is told by its kind alone. -/
def message (e : RenderError) : Chars :=
  match e.detail with
  | none => e.kind.name
  | some detail =>
    e.kind.name ++ ": ".toList ++ detail ++
      match e.place with
      | none => []
      | some p => " (in ".toList ++ p.template ++ ":".toList ++ Text.ofNat p.line ++ ")".toList

theorem message_of_detail_none {e : RenderError} (h : e.detail = none) : e.message = e.kind.name := by
  simp [message, h]

end RenderError

/-- What a command of the command line complains about itself. -/
inductive CommandError where
  | usage (text : Chars)
  | unknownCommand
  | cannotRead (path : Chars) (cause : FileError)
deriving DecidableEq, Repr

/-- The wording of a command's complaint. -/
def CommandError.message : CommandError → Chars
  | .usage text => "Usage: rainbridge ".toList ++ text
  | .unknownCommand => "Unknown command".toList
  | .cannotRead path cause => "cannot read ".toList ++ path ++ ": ".toList ++ cause.message

/-- Every failure of the library. -/
inductive Error where
  | templateNotFound (name : Chars) (searched : List Chars)
  | invalidTemplateName (name : Chars)
  | unbalancedLoop (line : Nat) (depth : Int)
  | unknownFunction (name : Chars)
  | config (cause : ConfigError)
  | render (cause : RenderError)
  | file (cause : FileError)
  | yaml
  | json
  | command (cause : CommandError)
deriving DecidableEq, Repr

namespace Error

/-- The wording of a failure. -/
def message : Error → Chars
  | templateNotFound name searched =>
    "Template not found: ".toList ++ name ++ " (searched ".toList ++ Text.ofNat searched.length ++
      " directories)".toList
  | invalidTemplateName name => "Invalid template name: ".toList ++ name
  | unbalancedLoop line depth =>
    "Unbalanced loop directive at line ".toList ++ Text.ofNat line ++ " (depth ".toList ++
      Text.ofInt depth ++ ")".toList
  | unknownFunction name => "Unknown template function: ".toList ++ name
  | config cause => "Config error: ".toList ++ cause.message
  | render cause => "Render error: ".toList ++ cause.message
  | file cause => "IO error: ".toList ++ cause.message
  | yaml => "YAML error".toList
  | json => "JSON error".toList
  | command cause => cause.message

end Error
end ViewBridge
