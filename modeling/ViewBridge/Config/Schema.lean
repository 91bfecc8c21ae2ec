import ViewBridge.Config.Basic
import ViewBridge.Json.Pretty
/-!
# The schema of a configuration

A description of configuration documents for editors and checkers: every setting with what it means, its
type and its default. The defaults are those that a document without the setting gets, so they are taken
from there and not written again.
-/
namespace ViewBridge.Config

/-- A JSON object with plainly written keys. -/
def schemaObject (members : List (String × Json)) : Json :=
  .obj (members.map fun m => (m.1.toList, m.2))

/-- A JSON text. -/
def schemaText (s : String) : Json := .str s.toList

/-- A JSON array of texts. -/
def schemaTexts (xs : List Chars) : Json := .arr (xs.map .str)

/-- Where the schema of a section stands. -/
def sectionRef (name : String) : Json := .str ("#/$defs/".toList ++ name.toList)

/-- A setting with a schema of its own. -/
def referenceSchema (description name : String) (default : Json) : Json :=
  schemaObject [("description", schemaText description), ("$ref", sectionRef name), ("default", default)]

/-- A setting that is a text. -/
def textSchema (description : String) (default : Chars) : Json :=
  schemaObject
    [("description", schemaText description), ("type", schemaText "string"), ("default", .str default)]

/-- A setting that is a list of texts. -/
def textsSchema (description : String) (default : List Chars) : Json :=
  schemaObject
    [("description", schemaText description), ("type", schemaText "array"),
      ("default", schemaTexts default), ("items", schemaObject [("type", schemaText "string")])]

/-- A text that may be null, as it is given. -/
def optionalText : Option Chars → Json
  | some s => .str s
  | none => .null

/-- A section of settings. -/
def sectionSchema (description : String) (settings : List (String × Json)) : Json :=
  schemaObject
    [("description", schemaText description), ("type", schemaText "object"),
      ("properties", schemaObject settings)]

/-- One of the values that a setting may have. -/
def valueSchema (description : String) (value : Chars) : Json :=
  schemaObject
    [("description", schemaText description), ("type", schemaText "string"), ("const", .str value)]

/-- The settings of views. -/
def viewsSchema (v : Views) : Json :=
  sectionSchema "Template directories"
    [("core_dir", textSchema "Core view directory, always searched last" v.coreDir),
      ("folders", textsSchema "View folder names tried inside each plugin directory" v.folders),
      ("plugins", textsSchema
        "Active plugins in declaration order. Later plugins take precedence." v.plugins),
      ("plugins_dir", textSchema "Directory holding one sub-directory per plugin" v.pluginsDir),
      ("theme_dir", schemaObject
        [("description", schemaText "Optional theme directory, searched before every plugin"),
          ("type", schemaTexts ["string".toList, "null".toList]),
          ("default", optionalText v.themeDir)])]

/-- The settings of the translator. -/
def translatorSchema (t : TranslatorSettings) : Json :=
  sectionSchema "Translation settings"
    [("default_extension", textSchema
        "Extension of legacy templates, also appended to bare include names" t.extension),
      ("target", referenceSchema
        "Dialect emitted by `rainbridge translate` when `--target` is absent" "Target"
        (.str t.dialect.name))]

/-- The settings of the render engine. -/
def engineSchema (e : EngineSettings) : Json :=
  sectionSchema "Render engine settings"
    [("constants", schemaObject
        [("description", schemaText "Values returned by `constant()` and `\x7b#NAME#\x7d`"),
          ("type", schemaText "object"), ("additionalProperties", .bool true),
          ("default", .obj e.constants)]),
      ("functions", textsSchema "Legacy helper functions made available to templates" e.functions)]

/-- The dialects. -/
def dialectSchema : Json :=
  schemaObject
    [("description", schemaText "Dialect emitted by the translator"),
      ("oneOf", .arr
        [valueSchema "Twig 3 syntax (legacy host)" Dialect.twig.name,
          valueSchema "MiniJinja syntax (embedded engine)" Dialect.minijinja.name])]

/-- The views that a document without them gets. -/
def viewsDefault (v : Views) : Json :=
  schemaObject
    [("core_dir", .str v.coreDir), ("folders", schemaTexts v.folders), ("plugins", schemaTexts v.plugins),
      ("plugins_dir", .str v.pluginsDir), ("theme_dir", optionalText v.themeDir)]

/-- The translator settings that a document without them gets. -/
def translatorDefault (t : TranslatorSettings) : Json :=
  schemaObject [("default_extension", .str t.extension), ("target", .str t.dialect.name)]

/-- The engine settings that a document without them gets. -/
def engineDefault (e : EngineSettings) : Json :=
  schemaObject [("constants", .obj e.constants), ("functions", schemaTexts e.functions)]

/-- The schema of documents whose missing settings are those of `c`. -/
def schemaWith (c : Config) : Json :=
  schemaObject
    [("$schema", schemaText "https://json-schema.org/draft/2020-12/schema"),
      ("title", schemaText "Config"),
      ("description", schemaText "Root configuration (`rainbridge.yaml`)"),
      ("type", schemaText "object"),
      ("properties", schemaObject
        [("engine", referenceSchema "Embedded render engine settings" "EngineConfig"
            (engineDefault c.engine)),
          ("translation", referenceSchema "Legacy translation settings" "TranslationConfig"
            (translatorDefault c.translator)),
          ("version", schemaObject
            [("description", schemaText "Schema version for migrations"), ("type", schemaText "integer"),
              ("format", schemaText "uint32"), ("default", .int c.version), ("minimum", .int 0)]),
          ("views", referenceSchema "Where templates are looked up" "ViewsConfig"
            (viewsDefault c.views))]),
      ("$defs", schemaObject
        [("EngineConfig", engineSchema c.engine), ("Target", dialectSchema),
          ("TranslationConfig", translatorSchema c.translator),
          ("ViewsConfig", viewsSchema c.views)])]

/-- The schema of configuration documents. -/
def schema : Json := schemaWith {}

end ViewBridge.Config
