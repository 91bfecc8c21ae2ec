import ViewBridge.Config.Basic
import ViewBridge.Yaml.Reader
import ViewBridge.FileTree
/-!
# Reading a configuration

A configuration is a YAML mapping of sections. Settings that are missing have their defaults, unknown ones
are ignored, and one that is given twice or has the wrong shape makes the document unreadable. Constants may
be any value that JSON can hold; of a constant given twice the last one counts.

Results:
* `read_nil`: an empty document is the default configuration.
-/
namespace ViewBridge.Config

open ViewBridge (Yaml)

/-- A setting whose value is a text; every scalar has one. -/
def textOf : Yaml → Option Chars
  | .scalar _ s => some s
  | _ => none

/-- The members of a mapping by the text of their keys; an empty node has none. -/
def membersOf : Yaml → Option (List (Chars × Yaml))
  | .map ms => ms.mapM fun (k, v) => (textOf k).map fun key => (key, v)
  | .scalar true [] => some []
  | _ => none

/-- The items of a sequence; an empty node has none. -/
def itemsOf : Yaml → Option (List Yaml)
  | .seq xs => some xs
  | .scalar true [] => some []
  | _ => none

/-- A list of texts. -/
def textsOf (y : Yaml) : Option (List Chars) := (itemsOf y).bind fun xs => xs.mapM textOf

/-- A setting that may be null. -/
def optionalTextOf : Yaml → Option (Option Chars)
  | .scalar plain s => some (if plain && Yaml.isNull s then none else some s)
  | _ => none

/-- A version: an integer of 32 bits, written plainly. -/
def versionOf : Yaml → Option Nat
  | .scalar true s =>
    match Yaml.readInt? s with
    | some n => if 0 ≤ n ∧ n < Nat.pow 2 32 then some n.toNat else none
    | none => none
  | _ => none

/-- A dialect, by its exact name. -/
def dialectOf : Yaml → Option Dialect
  | .scalar _ s =>
    if s = Dialect.twig.name then some .twig
    else if s = Dialect.minijinja.name then some .minijinja
    else none
  | _ => none

/-- A setting of a section, or its default; `none` if it is given twice or cannot be read. -/
def setting {α : Type} (ms : List (Chars × Yaml)) (key : String) (read : Yaml → Option α)
    (default : α) : Option α :=
  match ms.filter fun m => m.1 == key.toList with
  | [] => some default
  | [m] => read m.2
  | _ => none

/-- Members in the order of their keys, the last one of each key. -/
def sorted (ms : List (Chars × Json)) : List (Chars × Json) :=
  ms.foldl
    (fun found m =>
      let others := found.filter fun f => f.1 != m.1
      others.filter (fun f => f.1 < m.1) ++ m :: others.filter fun f => m.1 < f.1)
    []

/-- A scalar as a JSON value; integers must fit 64 bits, and doubles that JSON cannot hold become null. -/
def scalarJson (plain : Bool) (s : Chars) : Option Json :=
  match Yaml.kind plain s with
  | .null => some .null
  | .bool b => some (.bool b)
  | .int n => if int64Min ≤ n ∧ n < Nat.pow 2 64 then some (.int n) else none
  | .float x =>
    match Binary.ofFloat x with
    | .finite .. => some (.float x)
    | _ => some .null
  | .text t => some (.str t)

mutual

/-- A node as a JSON value. -/
def jsonOf : Yaml → Option Json
  | .scalar plain s => scalarJson plain s
  | .seq xs => (jsonItems xs).map .arr
  | .map ms => (jsonMembers ms).map fun ms => .obj (sorted ms)

/-- Items as JSON values. -/
def jsonItems : List Yaml → Option (List Json)
  | [] => some []
  | x :: xs => do
    let j ← jsonOf x
    let js ← jsonItems xs
    pure (j :: js)

/-- Members as JSON members. -/
def jsonMembers : List (Yaml × Yaml) → Option (List (Chars × Json))
  | [] => some []
  | (k, v) :: ms => do
    let key ← textOf k
    let j ← jsonOf v
    let js ← jsonMembers ms
    pure ((key, j) :: js)

end

/-- The constants of a project. -/
def constantsOf : Yaml → Option (List (Chars × Json))
  | .map ms => (jsonMembers ms).map sorted
  | .scalar true [] => some []
  | _ => none

/-- The section on views. -/
def viewsOf (y : Yaml) : Option Views := do
  let ms ← membersOf y
  let d : Views := {}
  let coreDir ← setting ms "core_dir" textOf d.coreDir
  let themeDir ← setting ms "theme_dir" optionalTextOf d.themeDir
  let pluginsDir ← setting ms "plugins_dir" textOf d.pluginsDir
  let plugins ← setting ms "plugins" textsOf d.plugins
  let folders ← setting ms "folders" textsOf d.folders
  pure { coreDir, themeDir, pluginsDir, plugins, folders }

/-- The section on the translator. -/
def translatorOf (y : Yaml) : Option TranslatorSettings := do
  let ms ← membersOf y
  let d : TranslatorSettings := {}
  let dialect ← setting ms "target" dialectOf d.dialect
  let extension ← setting ms "default_extension" textOf d.extension
  pure { dialect, extension }

/-- The section on the render engine. -/
def engineOf (y : Yaml) : Option EngineSettings := do
  let ms ← membersOf y
  let d : EngineSettings := {}
  let functions ← setting ms "functions" textsOf d.functions
  let constants ← setting ms "constants" constantsOf d.constants
  pure { functions, constants }

/-- The configuration that a document holds. -/
def ofYaml? (y : Yaml) : Option Config := do
  let ms ← membersOf y
  let version ← setting ms "version" versionOf 1
  let views ← setting ms "views" viewsOf {}
  let translator ← setting ms "translation" translatorOf {}
  let engine ← setting ms "engine" engineOf {}
  pure { version, views, translator, engine }

/-- The valid configuration that a text is. -/
def read (s : Chars) : Except Error Config :=
  match (Yaml.read? s).bind ofYaml? with
  | none => .error .yaml
  | some c => c.validate.map fun _ => c

/-- The name of the file that a project's configuration is in. -/
def fileName : Chars := "rainbridge.yaml".toList

/-- The configuration in a file; its paths start where the file is. -/
def load (t : FileTree) (path : Chars) : Except Error Config :=
  match t.read path with
  | .error e => .error (.file e)
  | .ok text =>
    (read text).map fun c =>
      match Path.parent? path with
      | some base => c.rebase base
      | none => c

/-- The configuration of the project in a directory; the defaults if it has no configuration file. -/
def discover (t : FileTree) (dir : Chars) : Except Error Config :=
  let path := Path.join dir fileName
  if t.exists? path then load t path else .ok (Config.rebase {} dir)

theorem read_nil : read [] = .ok {} := by
  have h : Yaml.read? [] = some Yaml.empty := by
    rw [Yaml.read?, Yaml.linesOf?, Text.replace]
    rfl
  have hempty : ofYaml? Yaml.empty = some {} := rfl
  rw [read, h, Option.bind_some, hempty]
  show (validate {}).map (fun _ => ({} : Config)) = .ok {}
  rw [validate_default]
  rfl

end ViewBridge.Config
