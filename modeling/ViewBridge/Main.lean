import ViewBridge.CommandLine
import Std.Time.DateTime.Timestamp
/-!
# The program

Reads what a run may look at from the disk, runs the command line on it, writes the file that the run
changed, and prints. Nothing is decided here: the run itself is `ViewBridge.runCommandLine`.
-/
namespace ViewBridge.Terminal

/-- The path on disk of a location. -/
def pathOf (loc : Location) : String := String.ofList ('/' :: Text.join ['/'] loc)

/-- The working directory. -/
def currentLocation : IO Location := do
  return (Path.segments (← IO.currentDir).toString.toList).filter (· ≠ [])

/-- The time. -/
def currentInstant : IO Instant := do
  let now := (← Std.Time.Timestamp.now).val
  return { secs := now.second.val, nanos := now.nano.val.toNat }

/-- The file at a location, if one can be read there. -/
def fileAt (loc : Location) : IO (Option File) := do
  try
    let bytes ← IO.FS.readBinFile (pathOf loc)
    return some { text := (String.fromUTF8? bytes).map String.toList, modified := 0 }
  catch _ => return none

/-- Whether a directory is at a location. -/
def isDirectoryAt (loc : Location) : IO Bool := do ((← IO.currentDir) / pathOf loc).isDir

/-- The tree with what is at a location. -/
def look (t : FileTree) (loc : Location) : IO FileTree := do
  if ← isDirectoryAt loc then return t.addDirectory loc
  match ← fileAt loc with
  | some f => return t.addFile loc f
  | none => return t

/-- The tree with what is at every step of a path. -/
def lookAlong (t : FileTree) (path : Chars) : IO FileTree :=
  let segments := Path.segments path
  (List.range (segments.length + 1)).foldlM
    (fun t n => look t (t.locationOf (Text.join ['/'] (segments.take n)))) t

/-- The tree with what is at a location and everything below it. -/
partial def lookBelow (t : FileTree) (loc : Location) : IO FileTree := do
  let t ← look t loc
  if ← isDirectoryAt loc then
    try
      let entries ← ((← IO.currentDir) / pathOf loc).readDir
      entries.foldlM (fun t entry => lookBelow t (loc ++ [entry.fileName.toList])) t
    catch _ => return t
  else return t

/-- The standard input, if the arguments ask for it; none if it is not text. -/
def standardInput (arguments : List Chars) : IO (Option Chars) := do
  if arguments.contains ['-'] then
    try return some (← (← IO.getStdin).readToEnd).toList
    catch _ => return none
  else return some []

/-- What a run may look at. -/
def survey (arguments : List Chars) (input : Option Chars) (now : Instant) : IO FileTree := do
  let start := FileTree.empty (← currentLocation)
  let found ← (Invocation.paths ⟨arguments, input, start, now⟩).foldlM lookAlong start
  (Invocation.directories ⟨arguments, input, found, now⟩).foldlM
    (fun t dir => do lookBelow (← lookAlong t dir) (t.locationOf dir)) found

/-- Write the files in which a tree differs from the one before. -/
def save (before after : FileTree) : IO Unit :=
  after.files.forM fun (loc, f) => do
    if before.files.lookup loc ≠ some f then
      IO.FS.writeFile (pathOf loc) (String.ofList (f.text.getD []))

end ViewBridge.Terminal

open ViewBridge in
/-- Run the program with its arguments. -/
def main (arguments : List String) : IO UInt32 := do
  let arguments := arguments.map String.toList
  let input ← Terminal.standardInput arguments
  let now ← Terminal.currentInstant
  let tree ← Terminal.survey (arguments.drop 1) input now
  let report := runCommandLine arguments input tree now
  Terminal.save tree report.tree
  IO.print (String.ofList report.output)
  IO.eprint (String.ofList report.complaints)
  return UInt32.ofNat report.code
