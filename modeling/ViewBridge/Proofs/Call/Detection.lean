import ViewBridge.Proofs.Call.Translation
import ViewBridge.Proofs.Grammar.Basic
import ViewBridge.Proofs.Uncovered
/-!
# Which bodies are one call

A body is one call if the parenthesis behind the name is closed by the last character. The reader of calls
decides it without knowledge of escapes, and takes a literal that is left open for one that ends with the
arguments. What it decides is right for arguments that leave no literal open and have no backslash in one.

Results:
* `readFunctionBody_callee`: a body with a callee is that call or another expression.
* `closesAtEnd_eq_shuts`: what the reader of calls decides, in terms of a reader that knows escapes.
* `closesAtEnd_iff`: the arguments for which it decides right.
-/
namespace ViewBridge.Directive

open Expression (isQuote Mode Uncovered Complete shuts)
open Translator (IsIdentifier)

/-! ## Callees -/

/-- The name of a function, with colons for the methods of classes. -/
abbrev FunctionName := { s : Chars // s.head?.any Text.isNameStart = true ∧ ∀ c ∈ s, isCallChar c = true }

abbrev Identifier := { s : Chars // IsIdentifier s }

/-- What is called: a function, or a method of an object or of a member of it. -/
inductive Callee where
  | function (name : FunctionName)
  | method (object member : Identifier) (chain : List Identifier)

namespace Callee

/-- Members of an object, each behind an arrow. -/
def arrows (chain : List Identifier) : Chars := chain.flatMap fun m => '-' :: '>' :: m.1

theorem length_arrows (chain : List Identifier) : chain.length ≤ (arrows chain).length := by
  induction chain with
  | nil => exact Nat.le_refl 0
  | cons m chain ih =>
    simp only [arrows, List.flatMap_cons, List.length_append, List.length_cons] at ih ⊢
    omega

def text : Callee → Chars
  | function name => name.1
  | method object member chain => '$' :: object.1 ++ arrows (member :: chain)

/-- A call, as the reader of function bodies gives it. -/
def call (args : Chars) : Callee → FunctionBody
  | function name => .call name.1 (some args)
  | method object member chain => .method object.1 (member.1 :: chain.map Subtype.val) args

/-- A call as it is written, with blanks in front of its parentheses. -/
def source (callee : Callee) (gap : Expression.Blanks) (args : Chars) : Chars :=
  callee.text ++ gap.1 ++ '(' :: (args ++ [')'])

end Callee

section
variable {args : Chars}

theorem readArguments_append (args : Chars) : readArguments ('(' :: (args ++ [')'])) = some args := by
  have hbefore : Text.before? ")".toList (args ++ [')']) = some args := Text.before?_eq_some_iff.2 rfl
  rw [readArguments, show Text.after? "(".toList ('(' :: (args ++ [')'])) = some (args ++ [')']) from rfl,
    Option.bind_some, hbefore]

theorem dropWhile_gap (gap : Expression.Blanks) (s : Chars) : (gap.1 ++ '(' :: s).dropWhile Text.isBlank = '(' :: s := by
  rw [Text.dropWhile_append_cons (by decide), Text.dropWhile_eq_nil gap.2, List.nil_append]

/-- Behind the last member stands no further arrow. -/
theorem after?_arrow_gap (gap : Expression.Blanks) (s : Chars) : Text.after? "->".toList (gap.1 ++ '(' :: s) = none := by
  refine Option.eq_none_iff_forall_ne_some.2 fun r hr => ?_
  have harrow := Text.after?_eq_some_iff.1 hr
  obtain ⟨_ | ⟨c, gap⟩, hgap⟩ := gap
  · cases harrow
  · obtain rfl : c = '-' := (List.cons.inj harrow).1
    cases hgap '-' List.mem_cons_self

/-- What follows a callee starts with no character of names. -/
theorem exists_gap_eq (gap : Expression.Blanks) (s : Chars) :
    ∃ c rest, gap.1 ++ '(' :: s = c :: rest ∧ isCallChar c = false := by
  obtain ⟨_ | ⟨c, gap⟩, hgap⟩ := gap
  · exact ⟨'(', s, rfl, rfl⟩
  · have hblank := hgap c List.mem_cons_self
    refine ⟨c, gap ++ '(' :: s, rfl, Bool.or_eq_false_iff.2 ⟨?_, ?_⟩⟩
    · cases hc : Text.isNameChar c with
      | false => rfl
      | true => rw [Expression.isBlank_of_isNameChar hc] at hblank; cases hblank
    · rw [beq_eq_false_iff_ne]
      rintro rfl
      cases hblank

/-- What follows a name in a callee starts with no character of names. -/
theorem exists_arrows_eq (chain : List Identifier) (gap : Expression.Blanks) (s : Chars) :
    ∃ c rest, Callee.arrows chain ++ (gap.1 ++ '(' :: s) = c :: rest ∧ Text.isNameChar c = false := by
  cases chain with
  | nil =>
    obtain ⟨c, rest, hrest, hc⟩ := exists_gap_eq gap s
    exact ⟨c, rest, hrest, (Bool.or_eq_false_iff.1 hc).1⟩
  | cons m chain => exact ⟨'-', _, rfl, rfl⟩

/-- A name in front of the rest of a callee. -/
theorem span_identifier (name : Identifier) (chain : List Identifier) (gap : Expression.Blanks) (s : Chars) :
    let rest := Callee.arrows chain ++ (gap.1 ++ '(' :: s)
    (name.1 ++ rest).takeWhile Text.isNameChar = name.1 ∧ (name.1 ++ rest).dropWhile Text.isNameChar = rest := by
  obtain ⟨c, rest, hrest, hc⟩ := exists_arrows_eq chain gap s
  rw [hrest]
  exact Text.span_append_cons name.2.2 hc rest

theorem readChain_arrows (chain : List Identifier) (gap : Expression.Blanks) (s : Chars) (fuel : Nat)
    (hfuel : chain.length ≤ fuel) :
    readChain fuel (Callee.arrows chain ++ (gap.1 ++ '(' :: s)) = (chain.map Subtype.val, gap.1 ++ '(' :: s) := by
  induction chain generalizing fuel with
  | nil =>
    cases fuel with
    | zero => rfl
    | succ fuel =>
      rw [readChain]
      have harrow := after?_arrow_gap gap s
      simp only [Callee.arrows, List.flatMap_nil, List.nil_append, harrow]
      rfl
  | cons m chain ih =>
    obtain ⟨fuel, rfl⟩ : ∃ k, fuel = k + 1 := ⟨fuel - 1, by simp only [List.length_cons] at hfuel; omega⟩
    have hspan := span_identifier m chain gap s
    obtain ⟨m, hm⟩ := m
    obtain ⟨c, m, rfl⟩ := List.exists_cons_of_ne_nil hm.ne_nil
    have hstart : Text.isNameStart c = true := hm.1
    have hname : Text.isNameChar c = true := hm.2 c List.mem_cons_self
    have harrow : Text.after? "->".toList (Callee.arrows (⟨c :: m, hm⟩ :: chain) ++ (gap.1 ++ '(' :: s)) =
        some (c :: (m ++ (Callee.arrows chain ++ (gap.1 ++ '(' :: s)))) := by
      simp [Callee.arrows, Text.after?]
    have hrest := ih fuel (by simpa using hfuel)
    simp only [List.cons_append, List.takeWhile_cons, List.dropWhile_cons, hname, if_true] at hspan
    have htake := (List.cons.inj hspan.1).2
    rw [readChain, harrow]
    simp only [hstart, if_true, hspan.2, hrest, htake, List.map_cons]

/-- A body with a callee is read as that call, unless its parentheses do not seem to be closed. -/
theorem readFunctionBody_callee (callee : Callee) (gap : Expression.Blanks) (args : Chars) :
    readFunctionBody (callee.source gap args) = if closesAtEnd {} args = true then callee.call args else .other := by
  cases callee with
  | function name =>
    have hmethod : readMethodCall ((Callee.function name).source gap args) = none := by
      obtain ⟨_ | ⟨c, name⟩, hname⟩ := name
      · cases hname.1
      · have hc : c ≠ '$' := by
          rintro rfl
          cases hname.1
        have hsigil : Text.after? "$".toList (c :: name ++ gap.1 ++ '(' :: (args ++ [')'])) = none := by
          simp [Text.after?, hc.symm]
        rw [readMethodCall, Callee.source, Callee.text, hsigil]
        rfl
    have hplain : readPlainCall ((Callee.function name).source gap args) =
        if closesAtEnd {} args = true then some (.call name.1 (some args)) else none := by
      have hspan : ((Callee.function name).source gap args).takeWhile isCallChar = name.1 ∧
          ((Callee.function name).source gap args).dropWhile isCallChar = gap.1 ++ '(' :: (args ++ [')']) := by
        obtain ⟨c, rest, hrest, hc⟩ := exists_gap_eq gap (args ++ [')'])
        rw [Callee.source, Callee.text, List.append_assoc, hrest]
        exact Text.span_append_cons name.2.2 hc rest
      rw [readPlainCall, hspan.1, hspan.2, dropWhile_gap, name.2.1]
      simp only [not_true_eq_false, if_false, readArguments_append, Option.bind_some]
    rw [readFunctionBody, hmethod, hplain, Option.none_or]
    split <;> rfl
  | method object member chain =>
    have hmethod : readMethodCall ((Callee.method object member chain).source gap args) =
        if closesAtEnd {} args = true then some ((Callee.method object member chain).call args) else none := by
      have hspan := span_identifier object (member :: chain) gap (args ++ [')'])
      have hsigil : Text.after? "$".toList ((Callee.method object member chain).source gap args) =
          some (object.1 ++ (Callee.arrows (member :: chain) ++ (gap.1 ++ '(' :: (args ++ [')'])))) := by
        simp [Callee.source, Callee.text, Text.after?]
      have hchain := readChain_arrows (member :: chain) gap (args ++ [')'])
        (object.1 ++ (Callee.arrows (member :: chain) ++ (gap.1 ++ '(' :: (args ++ [')'])))).length (by
          have hlength := Callee.length_arrows (member :: chain)
          simp only [List.length_append]
          omega)
      rw [readMethodCall, hsigil]
      simp only [Option.bind_eq_bind, Option.bind_some, hspan.1, hspan.2, object.2.1, hchain, List.map_cons,
        not_true_eq_false, if_false, reduceCtorEq, dropWhile_gap, readArguments_append]
      rfl
    have hplain : readPlainCall ((Callee.method object member chain).source gap args) = none := rfl
    rw [readFunctionBody, hmethod, hplain, Option.or_none]
    split <;> rfl

end

/-! ## A reader that knows no escapes -/

/-- What closes a literal that is open. -/
def closing : Mode → Chars
  | .outside => []
  | .inside q | .escaped q => [q]

theorem step_inside {q c : Char} (hq : isQuote q = true) (hc : c ≠ '\\') :
    Mode.step true (.inside q) c = if c = q then .outside else .inside q := by
  rw [Mode.step, if_neg hc]
  by_cases h : c = q <;> simp [h, hq]

theorem isParenthesis_of_isQuote {c : Char} (h : isQuote c = true) : Expression.isParenthesis c = false := by
  simp only [isQuote, Bool.or_eq_true, beq_iff_eq] at h
  rcases h with rfl | rfl <;> rfl

/-- Without backslashes in literals the reader of calls decides as one that knows escapes and closes what is
open at the end. -/
theorem closesAtEnd_eq_shuts (s : Chars) (depth : Nat) :
    (Uncovered '\\' .outside s → closesAtEnd ⟨none, depth⟩ s =
      shuts .outside depth (s ++ (closing (Mode.run true .outside s) ++ [')']))) ∧
    ∀ q, isQuote q = true → Uncovered '\\' (.inside q) s → closesAtEnd ⟨some q, depth⟩ s =
      shuts (.inside q) depth (s ++ (closing (Mode.run true (.inside q) s) ++ [')'])) := by
  have hinside {m : Mode} (hm : m ≠ .outside) (c : Char) (depth : Nat) (t : Chars) :
      shuts m depth (c :: t) = shuts (m.step true c) depth t := Expression.shuts_cons (.inl hm) depth t
  induction s generalizing depth with
  | nil =>
    refine ⟨fun _ => by cases depth <;> rfl, fun q hq _ => ?_⟩
    have hstep := step_inside hq (Expression.ne_of_isQuote hq (c := '\\') rfl)
    rw [if_pos rfl] at hstep
    have hclose : shuts (.inside q) depth (q :: [')']) = shuts .outside depth [')'] := by
      rw [hinside Mode.noConfusion, hstep]
    refine Eq.trans ?_ hclose.symm
    cases depth <;> rfl
  | cons c s ih =>
    refine ⟨fun h => ?_, fun q hq h => ?_⟩
    · have htail := h.2
      rw [closesAtEnd, Mode.run_cons, List.cons_append]
      cases hc : isQuote c with
      | true =>
        have hstep : Mode.step true .outside c = .inside c := by rw [Mode.step, hc]; rfl
        rw [hstep] at htail
        rw [Expression.shuts_cons (.inr (isParenthesis_of_isQuote hc)), hstep]
        exact (ih depth).2 c hc htail
      | false =>
        have hstep : Mode.step true .outside c = .outside := by rw [Mode.step, hc]; rfl
        rw [hstep] at htail
        have hrest (depth : Nat) := (ih depth).1 htail
        simp only [shuts, hstep, ← hrest, true_and, Bool.false_eq_true, if_false]
        split
        · rfl
        · split
          · cases depth <;> simp
          · rfl
    · have hslash : c ≠ '\\' := fun hc => absurd (h.1 hc) Mode.noConfusion
      have htail := h.2
      have hstep := step_inside hq hslash
      rw [hstep] at htail
      rw [closesAtEnd, Mode.run_cons, List.cons_append, hinside Mode.noConfusion, hstep]
      by_cases hc : c = q
      · rw [if_pos hc] at htail ⊢
        simp only [hc, if_true]
        exact (ih depth).1 htail
      · rw [if_neg hc] at htail ⊢
        simp only [hc, if_false]
        exact (ih depth).2 q hq htail

/-- The reader of calls does not see backslashes. -/
theorem closesAtEnd_filter {st : ArgumentState} (hst : st.quote ≠ some '\\') (s : Chars) :
    closesAtEnd st (s.filter (· != '\\')) = closesAtEnd st s := by
  induction s generalizing st with
  | nil => rfl
  | cons c s ih =>
    by_cases hc : c = '\\'
    · have hskip : closesAtEnd st (c :: s) = closesAtEnd st s := by
        rw [closesAtEnd]
        cases hq : st.quote with
        | some q =>
          have hcq : c ≠ q := by
            rintro rfl
            exact hst (hc ▸ hq)
          simp only [if_neg hcq]
        | none => subst hc; rfl
      rw [List.filter_cons_of_neg (by simp [hc]), hskip, ih hst]
    · rw [List.filter_cons_of_pos (by simpa using hc), closesAtEnd, closesAtEnd]
      cases hq : st.quote with
      | some q =>
        simp only
        split
        · exact ih (by simp)
        · exact ih hst
      | none =>
        have hopen : some c ≠ some '\\' := fun h => hc (Option.some.inj h)
        simp only
        have hnone (depth : Nat) := @ih ⟨none, depth⟩ (by simp)
        simp only [@ih ⟨some c, st.depth⟩ hopen, hnone, ih hst]

/-- Arguments as the reader of calls takes them: without backslashes, and with what is open at the end closed. -/
def asTaken (args : Chars) : Chars :=
  let bare := args.filter (· != '\\')
  bare ++ closing (Mode.run true .outside bare)

/-- What the reader of calls decides. -/
theorem closesAtEnd_iff (args : Chars) : closesAtEnd {} args = shuts .outside 0 (asTaken args ++ [')']) := by
  have hbare : '\\' ∉ args.filter (· != '\\') := by simp
  have hreads := (closesAtEnd_eq_shuts (args.filter (· != '\\')) 0).1 (Expression.uncovered_of_not_mem hbare)
  rw [← closesAtEnd_filter (by simp), hreads, asTaken, List.append_assoc]

/-- The reader of calls decides right if no literal has a backslash in it or is left open. -/
theorem closesAtEnd_of_complete {args : Chars} (h : Complete '\\' args) :
    closesAtEnd {} args = shuts .outside 0 (args ++ [')']) := by
  have hreads := (closesAtEnd_eq_shuts args 0).1 h.1
  rwa [h.2] at hreads

end ViewBridge.Directive
