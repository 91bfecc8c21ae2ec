import ViewBridge.Proofs.Loop.Reading
import ViewBridge.Proofs.Phrase.FirstOperand
import ViewBridge.Proofs.Phrase.Reading
/-!
# Assignments that join

An assignment that joins an old value to a new one has the name and the operator in front of the expression, with
nothing around that. So the old value is joined to the first operand of the expression that the operator binds looser
than, and to all of it only if that is one such operand.

Results:
* `ScansTag.joining`: the operators of assignments as tokens.
* `IsPhrase.exists_first`: the first operand of a phrase, which is joined to what is in front.
* `IsPhrase.read_joined`: an assignment that joins, with an output of the name behind it.
-/
namespace ViewBridge

open Template Template.Reading
open Translator (IsIdentifier)

/-- How an operator of an assignment is written in the target dialect, and what it joins with. -/
structure Joining where
  written : Char
  mark : Mark
  level : Level
  operator : Operator
  reads : level.operator? mark = some operator

namespace Joining

/-- The operators that join the old value. -/
def ofChar : Char → Joining
  | '+' => ⟨'+', .plus, .sum, .add, rfl⟩
  | '-' => ⟨'-', .minus, .sum, .sub, rfl⟩
  | '*' => ⟨'*', .times, .product, .mul, rfl⟩
  | '/' => ⟨'/', .slash, .product, .div, rfl⟩
  | _ => ⟨'~', .tilde, .joined, .concat, rfl⟩

variable {c : Char}

theorem cases_of_isJoining (h : Directive.isJoining c = true) : c = '-' ∨ c = '+' ∨ c = '*' ∨ c = '/' ∨ c = '.' := by
  simpa [Directive.isJoining, or_assoc] using h

theorem written_eq (h : Directive.isJoining c = true) : (ofChar c).written = if c = '.' then '~' else c := by
  rcases cases_of_isJoining h with rfl | rfl | rfl | rfl | rfl <;> rfl

end Joining

theorem LoopTemplate.not_reserved {name : Chars} (hname : LoopTemplate.IsVariable name) (hself : name ≠ "self".toList) :
    (reservedNames.any fun r => r.toList == name) = false := by
  have every : ∀ r ∈ reservedNames, r = "self" ∨ r ∈ LoopTemplate.reserved := by decide
  refine List.any_eq_false.2 fun r hr hword => ?_
  obtain rfl := beq_iff_eq.1 hword
  rcases every r hr with rfl | hreserved
  · exact hself rfl
  · exact hname.2 r hreserved rfl

namespace Template

/-! ## Tokens -/

/-- An assignment that joins, with an output of the name behind it. -/
def joinedText (name : Chars) (c : Char) (s : Chars) : Chars :=
  Dialect.tag ("set ".toList ++ name ++ " = ".toList ++ (name ++ [' ', (Joining.ofChar c).written, ' ']) ++ s) ++
    Dialect.output (name ++ '|' :: "safe".toList)

/-- The tokens of that. -/
def joinedLexemes (name : Chars) (c : Char) (ls : List Lexeme) (line : Nat) : List Lexeme :=
  leadLexemes name (Joining.ofChar c).mark 1 ++
    (ls ++ ⟨.stop .statement, line⟩ :: Yields.outputLexemes line name "safe".toList)

/-- The operator of an assignment is one token. -/
theorem ScansTag.joining {c : Char} (hc : Directive.isJoining c = true) {line : Nat} {r : Chars} {ls : List Lexeme}
    (h : ScansTag .statement line r ls) :
    ScansTag .statement line ((Joining.ofChar c).written :: ' ' :: r) (⟨.mark (Joining.ofChar c).mark, line⟩ :: ls) := by
  have hread : readToken ((Joining.ofChar c).written :: ' ' :: r) = (.mark (Joining.ofChar c).mark, ' ' :: r) := by
    rcases Joining.cases_of_isJoining hc with rfl | rfl | rfl | rfl | rfl <;> rfl
  rcases Joining.cases_of_isJoining hc with rfl | rfl | rfl | rfl | rfl
  · exact h.blank.sign hread rfl (.inl rfl)
  · exact h.blank.sign hread rfl (.inr rfl)
  all_goals exact h.blank.mark hread rfl rfl (by decide) (by decide)

/-- Tokens that are one operand start with that on every level. -/
theorem IsOperand.eq_of_startsIn {kind : TagKind} {ls : List Lexeme} {line : Nat} {e o : Expr}
    (hop : IsOperand kind ls line e) {l : Level} (h : StartsIn (kind.levels - 1) l [⟨.stop kind, line⟩] ls o) : o = e := by
  obtain ⟨fuel, t, rest, rfl, hnot, hrun⟩ := hop
  have hfailure := isFailure_of_run_operand hrun
  cases fuel with
  | zero =>
    rw [readLevel] at hrun
    cases hrun
  | succ fuel => exact h.eq_of_run (run_readLevel_of_operand hfailure hnot hrun rfl l)

namespace IsPhrase

variable {s name : Chars} {e : Expr} {ls : List Lexeme} {line : Nat} {c : Char}

theorem tokens_joined (h : IsPhrase .statement s e ls line) (hname : IsIdentifier name)
    (hc : Directive.isJoining c = true) : tokens (joinedText name c s) = ⟨.start .statement, 1⟩ ::
      ⟨.name "set".toList, 1⟩ :: ⟨.name name, 1⟩ :: ⟨.mark .assign, 1⟩ :: joinedLexemes name c ls line := by
  have hnothing : Scans (line + lineBreaks []) [] [] := Scans.text List.not_mem_nil _
  have hout : Scans line (Dialect.output (name ++ '|' :: "safe".toList) ++ [])
      (Yields.outputLexemes line name "safe".toList ++ []) :=
    @LoopTemplate.scans_output _ _ _ _ [] _ List.not_mem_nil hname (by decide) hnothing
  rw [List.append_nil, List.append_nil] at hout
  have hphrase := ScansTag.phrase h.spells h.length_le (.inl rfl : IsSeam ' ') (@ScansTag.stop .statement _ _ _ hout).blank
  have hlead := (ScansTag.joining hc hphrase).blank.name hname.1 (List.all_eq_true.2 hname.2) rfl
  have hscan := Scans.set hname.1 (List.all_eq_true.2 hname.2) hlead
  have hshape : joinedText name c s = '\x7b' :: TagKind.statement.mark :: ' ' :: ("set".toList ++ ' ' :: (name ++
      ' ' :: '=' :: ' ' :: (name ++ ' ' :: (Joining.ofChar c).written :: ' ' ::
        (s ++ ' ' :: (TagKind.statement.closing ++ Dialect.output (name ++ '|' :: "safe".toList)))))) := by
    simp [joinedText, Dialect.tag, TagKind.mark, TagKind.closing]
  refine tokens_of_scans ?_ (hshape ▸ hscan)
  rw [joinedText, List.getLast?_append, Dialect.getLast?_output]
  rfl

/-! ## Reading -/

/-- What is in front of a phrase is joined to its first operand on the level of the operator. -/
theorem exists_first (h : IsPhrase .statement s e ls line) (hname : NamesVariable name) (hnot : Unnegated ls) (c : Char)
    (rest : List Lexeme) : ∃ (p : FirstPlace) (o : Expr), e = p.fill o ∧
      StartsIn (TagKind.levels .statement - 1) (Joining.ofChar c).level.tighter [⟨.stop .statement, line⟩] ls o ∧
      (readExpr (16 * ls.length + 221) (TagKind.levels .statement)).run
        (leadLexemes name (Joining.ofChar c).mark 1 ++ (ls ++ ⟨.stop .statement, line⟩ :: rest)) =
        .ok (p.fill (.binary (Joining.ofChar c).operator (.var 1 name) o), ⟨.stop .statement, line⟩ :: rest) := by
  have hreads : (readExpr (16 * ls.length + 109) (147 + 2)).run (ls ++ [⟨.stop .statement, line⟩]) = _ := h.reads
  have hreads := run_readExpr_stop (barred_stop .statement line []) hreads
    (show _ < 16 * ls.length + 110 by omega) .statement line rest
  obtain ⟨p, o, he, hstarts, hrun⟩ := exists_fill_of_readExpr (Joining.ofChar c).reads hname hnot hreads
    (show _ ≤ 16 * ls.length + 221 by omega) 1
  exact ⟨p, o, he, hstarts.exchange .statement line [], hrun⟩

/-- An assignment that joins is read as one of the expression with the old value joined to its first operand. -/
theorem read_joined (h : IsPhrase .statement s e ls line) (hname : LoopTemplate.IsVariable name)
    (hself : name ≠ "self".toList) (hc : Directive.isJoining c = true) (hnot : Unnegated ls) :
    ∃ (p : FirstPlace) (o : Expr), e = p.fill o ∧
      StartsIn (TagKind.levels .statement - 1) (Joining.ofChar c).level.tighter [⟨.stop .statement, line⟩] ls o ∧
      (IsOperand .statement ls line e → o = e) ∧ read (joinedText name c s) =
        .ok [.assign (.name name) (p.fill (.binary (Joining.ofChar c).operator (.var 1 name) o)),
          .output (.filter (.var line name) "safe".toList [] [])] := by
  have hnames : NamesVariable name := LoopTemplate.namesVariable_of_ne hname.2
  have hbind := LoopTemplate.not_reserved hname hself
  obtain ⟨p, o, he, hstarts, hrun⟩ := h.exists_first hnames hnot c (Yields.outputLexemes line name "safe".toList)
  refine ⟨p, o, he, hstarts, fun hop => hop.eq_of_startsIn hstarts, ?_⟩
  have hnil : Yields 14 nestingLimit false [] [] (.ok ([], [])) := (Yields.nil nestingLimit false []).mono (by decide)
  have hout := hnil.output (by decide) (by decide) hnames "safe".toList line
  rw [List.append_nil] at hout
  have hset : (readStatement (16 * ls.length + 223) nestingLimit false).run (⟨.name "set".toList, 1⟩ ::
      ⟨.name name, 1⟩ :: ⟨.mark .assign, 1⟩ :: joinedLexemes name c ls line) =
        .ok (.assign (.name name) (p.fill (.binary (Joining.ofChar c).operator (.var 1 name) o)),
          ⟨.stop .statement, line⟩ :: Yields.outputLexemes line name "safe".toList) := by
    have hstatement := run_readStatement_set hbind (16 * ls.length + 220) 149 false 1 (joinedLexemes name c ls line)
    exact hstatement.trans (run_map_ok hrun _)
  have hneed : 14 + 1 ≤ 16 * ls.length + 223 := by omega
  have hlength : 16 * (⟨.name "set".toList, 1⟩ :: ⟨.name name, 1⟩ :: ⟨.mark .assign, 1⟩ ::
      joinedLexemes name c ls line : List Lexeme).length + 48 = 16 * ls.length + 223 + 1 := by
    simp [joinedLexemes, leadLexemes, Yields.outputLexemes, lexemesAt]
    omega
  rw [read_eq (h.tokens_joined hname.1 hc), hlength, hout.run_statement hneed rfl rfl hset]
  rfl

end IsPhrase

end Template
end ViewBridge
