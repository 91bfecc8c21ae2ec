import ViewBridge.Path
import ViewBridge.Error
import ViewBridge.Text.Class
/-!
# Template names

A requested name is checked and made regular: single dots and repeated slashes go, the default extension is
added where the last segment has none, and a name that could leave a view directory is refused. Legacy code
often asks for a longer or shorter path than a file has, so a name has variants.

Results:
* `candidates_head`: what is looked for first is the name itself.
-/
namespace ViewBridge.TemplateName

/-- The steps of a name as plain segments; `none` if one of them is not plain. -/
def plainSegments : List Path.Step → Option (List Chars)
  | [] => some []
  | .here :: rest => plainSegments rest
  | .name s :: rest => (plainSegments rest).map (s :: ·)
  | .root :: _ => none
  | .up :: _ => none

/-- The regular form of a requested name. -/
def normalize (extension name : Chars) : Except Error Chars :=
  if name.all Text.isBlank || name.contains '\\' || Path.isAbsolute name then
    .error (.invalidTemplateName name)
  else
    match plainSegments (Path.steps name) with
    | none => .error (.invalidTemplateName name)
    | some segments =>
      match segments.getLast? with
      | none => .error (.invalidTemplateName name)
      | some last =>
        let joined := Text.join ['/'] segments
        .ok (if last.contains '.' then joined else joined ++ '.' :: extension)

/-- A list without later repetitions. -/
def dedupe (xs : List Chars) : List Chars :=
  xs.foldl (fun seen x => if seen.contains x then seen else seen ++ [x]) []

/-- The paths under which a template may stand: the name, its last segment, the name without its first
segment, its last two segments. -/
def variants (name : Chars) : List Chars :=
  let segments := Path.segments name
  let n := segments.length
  if n ≤ 1 then [name]
  else dedupe (name :: [n - 1, 1, n - 2].map fun k => Text.join ['/'] (segments.drop k))

/-- The files that may hold a variant: itself, and its counterpart among translated or native templates. -/
def candidates (extension name : Chars) : List Chars :=
  let legacy := '.' :: extension
  let native := legacy ++ ".twig".toList
  match Text.before? native name with
  | some stem => [name, stem ++ legacy]
  | none => if Text.endsWith legacy name then [name, name ++ ".twig".toList] else [name]

theorem candidates_head (extension name : Chars) :
    (candidates extension name).head? = some name := by
  unfold candidates
  simp only
  split
  · rfl
  · split <;> rfl

/-- Whether a file is a legacy template by its name. -/
def isLegacy (extension name : Chars) : Bool := Text.endsWith ('.' :: extension) name

end ViewBridge.TemplateName
