import ViewBridge.Table
import ViewBridge.Path
import ViewBridge.Error
/-!
# File trees

A file tree is a set of files and directories, each at a location: the names from the root down. A path is
walked from the root or from the working directory; a double dot goes up, a name must exist, and only the
last one may be a file. There are no links, and names are compared as they are written.

Results:
* `write_files`: writing changes the file at one location and no other.
-/
namespace ViewBridge

/-- A file: its text, if its bytes are one, and the second it was last changed. -/
structure File where
  text : Option Chars
  modified : Int
deriving DecidableEq, Repr

/-- The names that lead from the root to a file or a directory. -/
abbrev Location := List Chars

/-- What stands at a location. -/
inductive Entry where
  | file (f : File)
  | directory
deriving DecidableEq, Repr

/-- A file tree and its working directory. -/
structure FileTree where
  cwd : Location
  files : List (Location × File)
  dirs : List Location
deriving DecidableEq, Repr

namespace FileTree

/-- The path of the working directory. -/
def cwdPath (t : FileTree) : Chars := '/' :: Text.join ['/'] t.cwd

/-- What stands at a location; the root is always there. -/
def get? (t : FileTree) (loc : Location) : Option Entry :=
  match t.files.lookup loc with
  | some f => some (.file f)
  | none => if loc = [] ∨ loc ∈ t.dirs then some .directory else none

/-- Whether a segment can be a name at all. -/
def isName (segment : Chars) : Bool :=
  !segment.contains '\x00' && (Text.utf8 segment).length ≤ 255

/-- Walk segments from a directory. -/
def walk (t : FileTree) : Location → List Chars → Except FileError (Location × Entry)
  | loc, [] => .ok (loc, .directory)
  | loc, segment :: rest =>
    if segment = [] ∨ segment = ['.'] then walk t loc rest
    else if segment = ['.', '.'] then walk t loc.dropLast rest
    else if !isName segment then .error .notFound
    else
      match t.get? (loc ++ [segment]) with
      | none => .error .notFound
      | some .directory => walk t (loc ++ [segment]) rest
      | some (.file f) => if rest = [] then .ok (loc ++ [segment], .file f) else .error .notDirectory

/-- Where a path starts. -/
def startOf (t : FileTree) (path : Chars) : Location := if Path.isAbsolute path then [] else t.cwd

/-- What a path leads to; the empty path leads nowhere. -/
def locate (t : FileTree) (path : Chars) : Except FileError (Location × Entry) :=
  if path = [] then .error .notFound else t.walk (t.startOf path) (Path.segments path)

/-- Whether a path leads to a file. -/
def isFile (t : FileTree) (path : Chars) : Bool :=
  match t.locate path with
  | .ok (_, .file _) => true
  | _ => false

/-- Whether a path leads to a directory. -/
def isDirectory (t : FileTree) (path : Chars) : Bool :=
  match t.locate path with
  | .ok (_, .directory) => true
  | _ => false

/-- Whether a path leads to anything. -/
def exists? (t : FileTree) (path : Chars) : Bool :=
  match t.locate path with
  | .ok _ => true
  | .error _ => false

/-- The file a path leads to. -/
def file (t : FileTree) (path : Chars) : Except FileError File :=
  match t.locate path with
  | .ok (_, .file f) => .ok f
  | .ok (_, .directory) => .error .isDirectory
  | .error e => .error e

/-- The text of a file. -/
def read (t : FileTree) (path : Chars) : Except FileError Chars :=
  match t.file path with
  | .ok f =>
    match f.text with
    | some s => .ok s
    | none => .error .invalidUtf8
  | .error e => .error e

/-- The location of a file that can be written at a path: its directory must be there, and it must not be a
directory itself. -/
def target (t : FileTree) (path : Chars) : Except FileError Location :=
  if path = [] then .error .notFound
  else
    let segments := Path.segments path
    let last := segments.getLastD []
    match t.walk (t.startOf path) segments.dropLast with
    | .error e => .error e
    | .ok (_, .file _) => .error .notDirectory
    | .ok (loc, .directory) =>
      if (Path.step? last).isNone ∨ last = ['.', '.'] then .error .isDirectory
      else if !isName last then .error .notFound
      else if t.get? (loc ++ [last]) = some .directory then .error .isDirectory
      else .ok (loc ++ [last])

/-- The tree after a text is written to a path. -/
def write (t : FileTree) (path text : Chars) (modified : Int) : Except FileError FileTree :=
  (t.target path).map fun loc => { t with files := Table.put t.files loc ⟨some text, modified⟩ }

theorem write_files {t t' : FileTree} {path text : Chars} {modified : Int}
    (h : t.write path text modified = .ok t') :
    ∃ loc, t.target path = .ok loc ∧ t'.files.lookup loc = some ⟨some text, modified⟩ ∧
      ∀ other, other ≠ loc → t'.files.lookup other = t.files.lookup other := by
  unfold write at h
  cases htarget : t.target path with
  | error e => simp [htarget, Except.map] at h
  | ok loc =>
    simp only [htarget, Except.map, Except.ok.injEq] at h
    subst h
    exact ⟨loc, rfl, by simp [Table.lookup_put], fun other ho => by simp [Table.lookup_put, ho]⟩

/-! ## Building trees -/

/-- The locations above one, itself included. -/
def ancestors (loc : Location) : List Location := (List.range (loc.length + 1)).map loc.take

/-- The tree with a directory and all directories above it. -/
def addDirectory (t : FileTree) (loc : Location) : FileTree :=
  { t with dirs := t.dirs ++ (ancestors loc).filter fun l => l ≠ [] ∧ l ∉ t.dirs }

/-- The tree with a file and all directories above it. -/
def addFile (t : FileTree) (loc : Location) (f : File) : FileTree :=
  let t := t.addDirectory loc.dropLast
  { t with files := Table.put t.files loc f }

/-- The tree without what stands at a location and below it. -/
def remove (t : FileTree) (loc : Location) : FileTree :=
  let below (l : Location) : Bool := l.take loc.length == loc
  { t with files := t.files.filter fun e => !below e.1, dirs := t.dirs.filter fun l => !below l }

/-- The location that a path names, whether anything stands there or not. -/
def locationOf (t : FileTree) (path : Chars) : Location :=
  (Path.segments path).foldl
    (fun loc segment => match Path.step? segment with
      | some (.name s) => loc ++ [s]
      | some .up => loc.dropLast
      | _ => loc)
    (t.startOf path)

/-- The tree with nothing but a working directory. -/
def empty (cwd : Location) : FileTree := addDirectory ⟨cwd, [], []⟩ cwd

end FileTree
end ViewBridge
