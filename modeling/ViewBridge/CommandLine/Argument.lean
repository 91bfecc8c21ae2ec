import ViewBridge.Text.Basic
/-!
# Command-line arguments

An argument list is read from left to right: a flag that has a value takes the argument after it, whatever
that is, and every other argument stands for itself. The operand of a command is found by this reading. The
value of an option and a switch are looked for anywhere in the list.

Results:
* `operand?_eq_some`: the operand is one of the arguments, and no switch.
* `value?_mem`: the value of an option is one of the arguments.
-/
namespace ViewBridge

/-- An option that has a value, with its spellings. -/
inductive CommandOption where
  | dialect
  | config
  | context
  | output
deriving DecidableEq, Repr

/-- The spellings of an option. -/
def CommandOption.flags : CommandOption → List Chars
  | dialect => ["--target".toList, "-t".toList]
  | config => ["--config".toList, "-c".toList]
  | context => ["--context".toList]
  | output => ["--output".toList, "-o".toList]

/-- Every option. -/
def CommandOption.all : List CommandOption := [dialect, config, context, output]

/-- What an argument is when a list is read from left to right. -/
inductive Argument where
  | option (flag value : Chars)
  | cutOff (flag : Chars)
  | word (text : Chars)
deriving DecidableEq, Repr

namespace Argument

/-- Whether an argument takes the one after it as its value. -/
def takesValue (argument : Chars) : Bool :=
  CommandOption.all.any fun o => o.flags.contains argument

/-- Read a list of arguments from left to right. -/
def readAll : List Chars → List Argument
  | [] => []
  | [a] => [if takesValue a then .cutOff a else .word a]
  | a :: b :: rest =>
    if takesValue a then .option a b :: readAll rest else .word a :: readAll (b :: rest)

/-- Whether a word is an operand: a lone dash is one, other words with a leading dash are switches. -/
def isOperand (word : Chars) : Bool := word == ['-'] || word.head? != some '-'

/-- The text of an operand. -/
def operandText? : Argument → Option Chars
  | .word s => if isOperand s then some s else none
  | _ => none

/-- The first operand of a list of arguments. -/
def operand? (arguments : List Chars) : Option Chars := (readAll arguments).findSome? operandText?

/-- The argument after the first spelling of an option. -/
def value? (o : CommandOption) (arguments : List Chars) : Option Chars :=
  match arguments.dropWhile fun a => !o.flags.contains a with
  | _ :: value :: _ => some value
  | _ => none

/-- Whether a switch is among the arguments. -/
def hasSwitch (switch : Chars) (arguments : List Chars) : Bool := arguments.contains switch

theorem word_mem {arguments : List Chars} {s : Chars} (h : .word s ∈ readAll arguments) :
    s ∈ arguments := by
  fun_induction readAll arguments with
  | case1 => simp at h
  | case2 a =>
    simp only [List.mem_singleton] at h
    split at h
    · cases h
    · cases h
      simp
  | case3 a b rest _ ih =>
    rcases List.mem_cons.1 h with h | h
    · cases h
    · simp [ih h]
  | case4 a b rest _ ih =>
    rcases List.mem_cons.1 h with h | h
    · cases h
      simp
    · exact List.mem_cons_of_mem _ (ih h)

theorem operand?_eq_some {arguments : List Chars} {s : Chars} (h : operand? arguments = some s) :
    s ∈ arguments ∧ isOperand s = true := by
  obtain ⟨a, ha, hs⟩ := List.exists_of_findSome?_eq_some h
  cases a with
  | option _ _ => simp [operandText?] at hs
  | cutOff _ => simp [operandText?] at hs
  | word t =>
    simp only [operandText?, Option.ite_none_right_eq_some, Option.some.injEq] at hs
    obtain ⟨ht, rfl⟩ := hs
    exact ⟨word_mem ha, ht⟩

theorem value?_mem {o : CommandOption} {arguments : List Chars} {s : Chars}
    (h : value? o arguments = some s) : s ∈ arguments := by
  unfold value? at h
  split at h
  · rename_i flag value rest heq
    cases h
    have : s ∈ arguments.dropWhile fun a => !o.flags.contains a := by
      rw [heq]
      exact List.mem_cons_of_mem _ List.mem_cons_self
    exact (List.dropWhile_suffix _).subset this
  · cases h

end Argument
end ViewBridge
