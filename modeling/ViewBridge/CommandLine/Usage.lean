import ViewBridge.Text.Basic
/-!
# What the command line says about itself

The overview of all commands and the text of the version, with the line breaks they are printed with.
-/
namespace ViewBridge

/-- Lines, each with its line break. -/
def linesOfText (lines : List String) : Chars := lines.flatMap fun line => line.toList ++ ['\n']

/-- The overview of commands, options and examples. -/
def usageText : Chars :=
  linesOfText
    ["",
      "rainbridge - RainTPL templates for Twig and MiniJinja",
      "",
      "USAGE:",
      "    rainbridge <COMMAND> [OPTIONS]",
      "",
      "COMMANDS:",
      "    translate <file|->              Translate a legacy template",
      "    check <file|->                  Check that every \x7bloop\x7d is closed",
      "    search-path                     Print the view search path",
      "    resolve <name>                  Resolve a template and print its source",
      "    render <name>                   Render a template with the embedded engine",
      "    config                          Validate the config file",
      "    schema                          Print the config JSON schema",
      "    version                         Print the version",
      "",
      "OPTIONS:",
      "    --target <twig|minijinja>       Dialect for translate (default: from config, else twig)",
      "    --config <file>                 Config file (default: ./rainbridge.yaml)",
      "    --context <file.json>           Render context (render)",
      "    --output <file>                 Output file (default: stdout)",
      "    --path                          Print the resolved path only (resolve)",
      "",
      "EXAMPLES:",
      "    rainbridge translate view/index.html --target minijinja",
      "    rainbridge check view/block/list.html",
      "    rainbridge search-path --config shop/rainbridge.yaml",
      "    rainbridge resolve master/block/file",
      "    rainbridge render index --context ctx.json --output index.out.html",
      "",
      "Set RUST_LOG=debug to see resolver fallbacks and cache hits.",
      ""]

/-- The program's name and version. -/
def versionText : Chars := linesOfText ["rainbridge 0.1.0"]

end ViewBridge
