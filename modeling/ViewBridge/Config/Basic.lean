import ViewBridge.Dialect
import ViewBridge.Helper
import ViewBridge.Json.Basic
import ViewBridge.Path
/-!
# Configuration

Where a project's views are, how they are translated, and what its templates may use. Every setting has a
default: core views in one directory, plugins in another, all helpers enabled and no constants.

Results:
* `rebase_of_absolute`: rebasing leaves absolute paths alone.
* `validate_default`: the defaults are valid.
-/
namespace ViewBridge

/-- Where templates are looked up. -/
structure Views where
  coreDir : Chars := "view".toList
  themeDir : Option Chars := none
  pluginsDir : Chars := "plugins".toList
  plugins : List Chars := []
  folders : List Chars := ["View".toList, "view".toList]

/-- What is written where a command does not say, and the extension of legacy templates. -/
structure TranslatorSettings where
  dialect : Dialect := .twig
  extension : Chars := "html".toList

/-- The helpers that templates may call, and their constants in order of their names. -/
structure EngineSettings where
  functions : List Chars := Helper.all.map Helper.name
  constants : List (Chars × Json) := []

/-- The configuration of a project. -/
structure Config where
  version : Nat := 1
  views : Views := {}
  translator : TranslatorSettings := {}
  engine : EngineSettings := {}

namespace Config

/-- The helpers with the given names, or the first name without a helper. -/
def helpers : List Chars → Except Error (List Helper)
  | [] => .ok []
  | name :: names =>
    match Helper.ofName? name with
    | some h => (helpers names).map (h :: ·)
    | none => .error (.unknownFunction name)

/-- Check what the types leave open. -/
def validate (c : Config) : Except Error Unit :=
  if 1 < c.version then .error (.config (.newerVersion c.version))
  else if c.views.folders = [] then .error (.config .noFolders)
  else if c.translator.extension.all (· == '.') then .error (.config .emptyExtension)
  else (helpers c.engine.functions).map fun _ => ()

theorem helpers_map_name (hs : List Helper) : helpers (hs.map Helper.name) = .ok hs := by
  induction hs with
  | nil => rfl
  | cons h hs ih => rw [List.map_cons, helpers, Helper.ofName?_name, ih]; rfl

theorem validate_default : validate {} = .ok () := by
  have hextension : ("html".toList.all (· == '.')) ≠ true := by decide
  rw [validate, if_neg (by decide), if_neg (by decide), if_neg hextension, helpers_map_name]
  rfl

/-- A path of a configuration that stands in the directory `base`. -/
def rebasePath (base path : Chars) : Chars :=
  if Path.isAbsolute path || base == [] then path else Path.join base path

theorem rebase_of_absolute {base path : Chars} (h : Path.isAbsolute path = true) :
    rebasePath base path = path := by
  simp [rebasePath, h]

/-- The configuration with the paths it has when it stands in the directory `base`. -/
def rebase (c : Config) (base : Chars) : Config :=
  { c with
    views := { c.views with
      coreDir := rebasePath base c.views.coreDir
      pluginsDir := rebasePath base c.views.pluginsDir
      themeDir := c.views.themeDir.map (rebasePath base) } }

end Config
end ViewBridge
