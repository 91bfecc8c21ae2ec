import ViewBridge.CommandLine.Argument
import ViewBridge.CommandLine.Usage
import ViewBridge.Config.Reading
import ViewBridge.Config.Schema
import ViewBridge.Translator.Balance
import ViewBridge.Engine
/-!
# The command line

A command reads its operand, its options, the standard input and the file tree, and either fails or has a
product: a message, or a document with a notice about it. Only then is anything printed or written. A
message goes to the standard output; a document goes to the file that the output option names and otherwise
to the standard output; the notice and all complaints go to the error output.

Results:
* `deliver_tree`: delivering changes at most one file, and a delivery that fails changes none.
* `run_tree_of_failure`: a command that has no product changes no file.
-/
namespace ViewBridge

/-- The commands. -/
inductive Command where
  | translate
  | check
  | searchPath
  | resolve
  | render
  | config
  | schema
  | version
  | help
deriving DecidableEq, Repr

/-- Every command. -/
def Command.all : List Command :=
  [translate, check, searchPath, resolve, render, config, schema, version, help]

/-- The names of a command. -/
def Command.names : Command → List Chars
  | translate => ["translate".toList]
  | check => ["check".toList]
  | searchPath => ["search-path".toList]
  | resolve => ["resolve".toList]
  | render => ["render".toList]
  | config => ["config".toList]
  | schema => ["schema".toList]
  | version => ["version".toList, "--version".toList, "-v".toList]
  | help => ["help".toList, "--help".toList, "-h".toList]

/-- The command of a name. -/
def Command.ofName? (name : Chars) : Option Command := all.find? fun c => c.names.contains name

/-- What a command has to work on: the arguments after its name, the standard input if that is text, the
files and the time. -/
structure Invocation where
  arguments : List Chars
  input : Option Chars
  tree : FileTree
  now : Instant

/-- What a command that succeeds has to show. -/
inductive Product where
  | message (text : Chars)
  | document (notice text : Chars)
deriving DecidableEq, Repr

/-- How a run ends: the exit code, what was printed, and the files after it. -/
structure Report where
  code : Nat
  output : Chars
  complaints : Chars := []
  tree : FileTree
deriving DecidableEq, Repr

namespace Invocation

/-- The value of an option. -/
def value? (i : Invocation) (o : CommandOption) : Option Chars := Argument.value? o i.arguments

/-- The operand of a command that needs one. -/
def operand (i : Invocation) (usage : String) : Except Error Chars :=
  match Argument.operand? i.arguments with
  | some s => .ok s
  | none => .error (.command (.usage usage.toList))

/-- The configuration that is asked for, or the one of the working directory. -/
def loadConfig (i : Invocation) : Except Error Config :=
  match i.value? .config with
  | some path => Config.load i.tree path
  | none => Config.discover i.tree i.tree.cwdPath

/-- The dialect that is asked for, or the configured one. -/
def dialect (i : Invocation) (c : Config) : Except Error Dialect :=
  match i.value? .dialect with
  | some name => Dialect.ofName name
  | none => .ok c.translator.dialect

/-- The text of a file, or of the standard input for a lone dash. -/
def read (i : Invocation) (path : Chars) : Except Error Chars :=
  if path = ['-'] then
    match i.input with
    | some s => .ok s
    | none => .error (.file .invalidUtf8)
  else
    match i.tree.read path with
    | .ok s => .ok s
    | .error cause => .error (.command (.cannotRead path cause))

/-- The values to render with: those of the document that is named, or none. -/
def context (i : Invocation) : Except Error Value :=
  match i.value? .context with
  | none => .ok (.map [])
  | some path => do
    let text ← i.read path
    match Json.read? text with
    | some document => pure (.ofJson document)
    | none => .error .json

/-- The paths that are looked at one by one: the arguments may be paths, and a project may have a
configuration. -/
def paths (i : Invocation) : List Chars := Config.fileName :: i.arguments

/-- The directories that are looked at with all that is in them: those of the views. -/
def directories (i : Invocation) : List Chars :=
  match i.loadConfig with
  | .ok c => SearchPath.pluginDirs c.views ++ c.views.themeDir.toList ++ [c.views.coreDir]
  | .error _ => []

/-! ## The commands -/

/-- Translate a file. -/
def translate (i : Invocation) : Except Error Product := do
  let path ← i.operand "translate <file|-> [--target twig|minijinja] [--output <file>]"
  let config ← i.loadConfig
  let dialect ← i.dialect config
  let source ← i.read path
  pure (.document [] ((config.translatorTo dialect).translate source))

/-- Check the loops of a file. -/
def check (i : Invocation) : Except Error Product := do
  let path ← i.operand "check <file|->"
  let source ← i.read path
  Translator.checkBalance source
  pure (.message ("✓ ".toList ++ path ++ ": loops balanced\n".toList))

/-- Directories with their numbers, from 1 on. -/
def numbered (dirs : List Chars) : Chars :=
  dirs.zipIdx.flatMap fun (dir, n) =>
    Text.padLeft ' ' 3 (Text.ofNat (n + 1)) ++ ". ".toList ++ dir ++ ['\n']

/-- Show the search path. -/
def searchPath (i : Invocation) : Except Error Product := do
  let config ← i.loadConfig
  pure (.message (numbered (SearchPath.build i.tree config.views).dirs))

/-- What is said about a template that was found. -/
def foundNotice (found : ResolvedTemplate) : Chars :=
  found.requested ++ " -> ".toList ++ found.path ++
    (if found.legacy then " (translated)".toList else []) ++ ['\n']

/-- Find a template and show its source, or only its path. -/
def resolve (i : Invocation) : Except Error Product := do
  let name ← i.operand "resolve <name> [--path] [--target twig|minijinja] [--output <file>]"
  let config ← i.loadConfig
  let dialect ← i.dialect config
  let found ← ((Resolver.ofConfig i.tree config dialect).resolve i.tree {} name).1
  if Argument.hasSwitch "--path".toList i.arguments then pure (.message (found.path ++ ['\n']))
  else pure (.document (foundNotice found) found.source)

/-- Render a template. -/
def render (i : Invocation) : Except Error Product := do
  let name ← i.operand "render <name> [--context <ctx.json>] [--output <file>]"
  let config ← i.loadConfig
  let engine ← Engine.ofConfig i.tree config
  let context ← i.context
  let text ← (engine.render i.tree {} i.now name context).1
  pure (.document [] text)

/-- What is said about a valid configuration. -/
def configSummary (t : FileTree) (c : Config) : Chars :=
  "✓ Configuration is valid\n".toList ++
    "  Core views:  ".toList ++ c.views.coreDir ++ '\n' ::
    "  Plugins:     ".toList ++ Text.ofNat c.views.plugins.length ++ '\n' ::
    "  Search path: ".toList ++ Text.ofNat (SearchPath.build t c.views).dirs.length ++
    " directories\n".toList ++
    "  Target:      ".toList ++ c.translator.dialect.name ++ '\n' ::
    "  Functions:   ".toList ++ Text.ofNat c.engine.functions.length ++ ['\n']

/-- Check the configuration. -/
def checkConfig (i : Invocation) : Except Error Product := do
  let config ← i.loadConfig
  config.validate
  pure (.message (configSummary i.tree config))

/-- The product of a command. -/
def perform (i : Invocation) : Command → Except Error Product
  | .translate => i.translate
  | .check => i.check
  | .searchPath => i.searchPath
  | .resolve => i.resolve
  | .render => i.render
  | .config => i.checkConfig
  | .schema => .ok (.message (Config.schema.pretty 2 0 ++ ['\n']))
  | .version => .ok (.message versionText)
  | .help => .ok (.message usageText)

end Invocation

namespace Report

/-- The complaint about a failure. -/
def complaint (e : Error) : Chars := "Error: ".toList ++ e.message ++ ['\n']

/-- A text as the standard output ends with it: with a line break. -/
def withLineBreak (s : Chars) : Chars := if s.getLast? = some '\n' then s else s ++ ['\n']

/-- Show a document: in the file that is asked for, or on the standard output. -/
def deliver (i : Invocation) (notice text : Chars) : Report :=
  match i.value? .output with
  | none => { code := 0, output := withLineBreak text, complaints := notice, tree := i.tree }
  | some path =>
    match i.tree.write path text i.now.secs with
    | .ok tree =>
      { code := 0, output := [], tree
        complaints := notice ++ "Written to: ".toList ++ path ++ ['\n'] }
    | .error cause =>
      { code := 1, output := [], complaints := notice ++ complaint (.file cause), tree := i.tree }

/-- How a command ends. -/
def ofProduct (i : Invocation) : Except Error Product → Report
  | .error e => { code := 1, output := [], complaints := complaint e, tree := i.tree }
  | .ok (.message text) => { code := 0, output := text, tree := i.tree }
  | .ok (.document notice text) => deliver i notice text

/-- How a run with a name that no command has ends. -/
def ofUnknown (name : Chars) (i : Invocation) : Report :=
  { code := 1, output := usageText, tree := i.tree
    complaints :=
      "Unknown command: ".toList ++ name ++ '\n' :: complaint (.command .unknownCommand) }

theorem deliver_tree (i : Invocation) (notice text : Chars) :
    ((deliver i notice text).tree = i.tree ∧
        ((deliver i notice text).code = 0 → i.value? .output = none)) ∨
      ∃ path, i.value? .output = some path ∧ (deliver i notice text).code = 0 ∧
        i.tree.write path text i.now.secs = .ok (deliver i notice text).tree := by
  unfold deliver
  split
  · exact .inl ⟨rfl, fun _ => by assumption⟩
  · rename_i path hpath
    split
    · exact .inr ⟨path, hpath, rfl, by assumption⟩
    · exact .inl ⟨rfl, fun h => by simp at h⟩

end Report

/-- Run the command line: the arguments after the program's name, the standard input, the files and the
time. -/
def runCommandLine (arguments : List Chars) (input : Option Chars) (tree : FileTree) (now : Instant) :
    Report :=
  match arguments with
  | [] => { code := 1, output := usageText, tree }
  | name :: arguments =>
    let i : Invocation := { arguments, input, tree, now }
    match Command.ofName? name with
    | some command => Report.ofProduct i (i.perform command)
    | none => Report.ofUnknown name i

theorem run_tree_of_failure {name : Chars} {arguments : List Chars} {input : Option Chars}
    {tree : FileTree} {now : Instant} {command : Command} {e : Error}
    (hc : Command.ofName? name = some command)
    (h : ({ arguments, input, tree, now } : Invocation).perform command = .error e) :
    (runCommandLine (name :: arguments) input tree now).tree = tree := by
  simp only [runCommandLine, hc, h, Report.ofProduct]

end ViewBridge
