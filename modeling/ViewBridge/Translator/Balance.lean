import ViewBridge.Translator.Stage
/-!
# Loop balance

Whether every loop tag of a template has its partner. Tags in comments, ignored and verbatim blocks do not
count; placeholders keep the line breaks of what they stand for, so the lines are those of the template.
-/
namespace ViewBridge

/-- A loop tag and the line it starts on: `true` opens. -/
structure LoopTag where
  opens : Bool
  line : Nat
deriving DecidableEq, Repr

namespace LoopTag

/-- The loop tags of a text that starts on a line. -/
def scan (line : Nat) (s : Chars) : List LoopTag :=
  match s with
  | [] => []
  | c :: cs =>
    match Directive.readLoop (c :: cs) with
    | some (mark, rest) =>
      if rest.length ≤ cs.length then
        let used := (c :: cs).take (cs.length + 1 - rest.length)
        let opens := match mark with
          | .opening _ => true
          | .closing => false
        ⟨opens, line⟩ :: scan (line + Text.occurrences '\n' used) rest
      else scan (if c = '\n' then line + 1 else line) cs
    | none => scan (if c = '\n' then line + 1 else line) cs
termination_by s.length
decreasing_by all_goals simp only [List.length_cons]; omega

/-- The balance of a list of tags, with the lines of the loops that are open, innermost first. -/
def balance : (opened : List Nat) → List LoopTag → Except Error Unit
  | [], [] => .ok ()
  | line :: rest, [] => .error (.unbalancedLoop line (rest.length + 1))
  | opened, ⟨true, line⟩ :: tags => balance (line :: opened) tags
  | [], ⟨false, line⟩ :: _ => .error (.unbalancedLoop line (-1))
  | _ :: opened, ⟨false, _⟩ :: tags => balance opened tags

end LoopTag

namespace Translator

/-- The loop tags of a template, outside comments, ignored and verbatim blocks. -/
def loopTags (source : Chars) : List LoopTag :=
  LoopTag.scan 1
    ((Translator.mk .twig "html".toList).runStages [.entities, .comments, .verbatim] {} source).1

/-- Check that every loop is closed and every closing tag closes one. -/
def checkBalance (source : Chars) : Except Error Unit := LoopTag.balance [] (loopTags source)

end Translator
end ViewBridge
