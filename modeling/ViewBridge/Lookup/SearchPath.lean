import ViewBridge.Config.Basic
import ViewBridge.FileTree
/-!
# The search path

The directories that templates are looked up in: the theme, the plugins from the last declared to the first,
and the core directory, which is always there and always last. Directories that do not exist are left out,
as are those that stand on the path already.

Results:
* `dirs_ne_nil`: there is always a directory.
* `getLast_dirs`: the last one is the core directory.
-/
namespace ViewBridge

/-- Directories in the order they are searched. -/
structure SearchPath where
  others : List Chars
  core : Chars
deriving DecidableEq, Repr

namespace SearchPath

/-- All directories, the core directory last. -/
def dirs (s : SearchPath) : List Chars := s.others ++ [s.core]

theorem dirs_ne_nil (s : SearchPath) : s.dirs ≠ [] := by simp [dirs]

theorem getLast_dirs (s : SearchPath) : s.dirs.getLast? = some s.core := by simp [dirs]

/-- The path of a name in the first directory that has a file of that name. -/
def find? (s : SearchPath) (t : FileTree) (name : Chars) : Option Chars :=
  (s.dirs.map fun dir => Path.join dir name).find? t.isFile

/-- Add a directory that exists and is not on the list yet. -/
def addDirectory (t : FileTree) (found : List Chars) (dir : Chars) : List Chars :=
  if t.isDirectory dir ∧ Path.steps dir ∉ found.map Path.steps then found ++ [dir] else found

/-- The directories that plugins may have, the last declared plugin first. -/
def pluginDirs (v : Views) : List Chars :=
  v.plugins.reverse.flatMap fun plugin =>
    v.folders.map fun folder => Path.join (Path.join v.pluginsDir plugin) folder

/-- The theme directory, if there is one and it exists. -/
def themeDirs (t : FileTree) (v : Views) : List Chars :=
  match v.themeDir with
  | some theme => if t.isDirectory theme then [theme] else []
  | none => []

/-- The search path of a project as its directories are now. -/
def build (t : FileTree) (v : Views) : SearchPath :=
  { others := (pluginDirs v).foldl (addDirectory t) (themeDirs t v), core := v.coreDir }

end SearchPath
end ViewBridge
