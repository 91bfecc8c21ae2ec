import ViewBridge.Proofs.Counting.Range
import ViewBridge.Proofs.Loop.Rendering
/-!
# Rendered counting loops

An arithmetic expression over variables that hold integers has the value of the arithmetic, as long as nothing in it
leaves the integers that the engine computes with. A call of `range` answers the numbers that are counted through,
unless a bound is negative or they are too many. A loop binds its variable to them one after the other.

Results:
* `eval_expr`: the value of an expression.
* `run_counting`: what `range` answers.
* `run_iterate_counter`: the rounds of a loop with one variable.
* `exec_stmt`: what a counting loop writes, or how it fails.
-/
namespace ViewBridge

open Template
open Translator (IsIdentifier)
open LoopTemplate (Sees Writes)

/-! ## Values -/

/-- The value of a leaf, from the values of names. -/
def Leaf.valueIn (around : Chars → Value) (x : Leaf) : Value :=
  x.path.foldl (fun v m => v.member m.2.1) (around x.head.1)

namespace Arithmetic

variable {t : Tier}

/-- The leaves of an expression. -/
def leaves : {t : Tier} → Arithmetic t → List Leaf
  | _, number _ => []
  | _, name x => [⟨x, []⟩]
  | _, member x => [x]
  | _, negative _ e | _, group _ e _ | _, ofSigned e | _, ofOperand e | _, ofProduct e => e.leaves
  | _, product a _ _ b | _, sum _ a _ _ b => a.leaves ++ b.leaves

/-- The values of an expression and of all parts of it. -/
def values (env : Leaf → Int) : {t : Tier} → Arithmetic t → List Int
  | _, number n => [n.value]
  | _, name x => [env ⟨x, []⟩]
  | _, member x => [env x]
  | _, negative gap e => (negative gap e).value env :: e.values env
  | _, group _ e _ | _, ofSigned e | _, ofOperand e | _, ofProduct e => e.values env
  | _, product a before behind b => (product a before behind b).value env :: (a.values env ++ b.values env)
  | _, sum op a before behind b => (sum op a before behind b).value env :: (a.values env ++ b.values env)

theorem value_mem_values (env : Leaf → Int) (e : Arithmetic t) : e.value env ∈ e.values env := by
  induction e with
  | group _ _ _ ih | ofSigned _ ih | ofOperand _ ih | ofProduct _ ih => exact ih
  | _ => exact List.mem_cons_self

/-- Numbers among the integers that are computed with are numbers that can be read. -/
theorem numbers_lt {env : Leaf → Int} {e : Arithmetic t} (h : ∀ n ∈ e.values env, Value.isOperand n = true) :
    ∀ n ∈ e.numbers, n < Nat.pow 2 128 := by
  induction e with
  | number n =>
    have hn : _ ∧ (n.value : Int) ≤ Value.int128Max := of_decide_eq_true (h _ List.mem_cons_self)
    have hmax : Value.int128Max < Nat.pow 2 128 := by decide
    exact List.forall_mem_singleton.2 (by omega)
  | name x | member x => exact List.forall_mem_nil _
  | negative gap e ih => exact ih (List.forall_mem_cons.1 h).2
  | group _ e _ ih | ofSigned e ih | ofOperand e ih | ofProduct e ih => exact ih h
  | product a before behind b iha ihb | sum op a before behind b iha ihb =>
    obtain ⟨ha, hb⟩ := List.forall_mem_append.1 (List.forall_mem_cons.1 h).2
    exact List.forall_mem_append.2 ⟨iha ha, ihb hb⟩

theorem exact_of_isOperand {n : Int} (h : Value.isOperand n = true) : Value.exact n = .ok (.int n) := by
  rw [Value.exact, if_pos (of_decide_eq_true h)]

/-- Two integers under an operator whose result is among the integers that are computed with. -/
theorem eval_binary {s : Scope} {a b : Expr} {op : Operator} {m n k : Int} (ha : a.eval s = .ok (.int m))
    (hb : b.eval s = .ok (.int n)) (hop : Value.apply op (.int m) (.int n) = .ok (.int k)) :
    (Expr.binary op a b).eval s = .ok (.int k) := by
  rw [Expr.eval, ha, hb]
  show s.located b.lastLine (Value.apply op (.int m) (.int n)) = _
  rw [hop]
  rfl

theorem apply_operator (op : Operator) {f : Int → Int → Int} {m n : Int}
    (hf : Value.apply op (.int m) (.int n) =
      if Value.isOperand m && Value.isOperand n then Value.exact (f m n) else .error Value.invalid)
    (hm : Value.isOperand m = true) (hn : Value.isOperand n = true) (h : Value.isOperand (f m n) = true) :
    Value.apply op (.int m) (.int n) = .ok (.int (f m n)) := by
  rw [hf, hm, hn, Bool.and_self, if_pos rfl, exact_of_isOperand h]

/-- The members of a leaf. -/
theorem eval_path {s : Scope} (path : List (Link × { s : Chars // IsIdentifier s })) {e : Expr} {v : Value}
    (h : e.eval s = .ok v) : (path.foldl (fun e m => Expr.member e m.2.1) e).eval s =
      .ok (path.foldl (fun v m => v.member m.2.1) v) := by
  induction path generalizing e v with
  | nil => exact h
  | cons m path ih => exact ih (by rw [Expr.eval_member, h]; rfl)

/-- An expression has the value of the arithmetic. -/
theorem eval_expr (e : Arithmetic t) {s : Scope} {around : Chars → Value} (hsees : Sees s.tools s.frames around)
    {env : Leaf → Int} (hleaves : ∀ x ∈ e.leaves, x.valueIn around = .int (env x))
    (hvalues : ∀ n ∈ e.values env, Value.isOperand n = true) (line : Nat) :
    (e.expr line).eval s = .ok (.int (e.value env)) := by
  have hleaf (x : Leaf) (hx : x.valueIn around = .int (env x)) (line : Nat) :
      (x.path.foldl (fun e m => Expr.member e m.2.1) (.var line x.head.1)).eval s = .ok (.int (env x)) := by
    rw [eval_path x.path (LoopTemplate.eval_name hsees (x.head.2.1.2 "loop" (by decide)) line), ← hx]
    rfl
  induction e generalizing line with
  | number n => rfl
  | name x => exact hleaf ⟨x, []⟩ (hleaves _ List.mem_cons_self) line
  | member x => exact hleaf x (hleaves _ List.mem_cons_self) line
  | negative gap e ih =>
    obtain ⟨hvalue, hinner⟩ := List.forall_mem_cons.1 hvalues
    rw [expr, Expr.eval, ih hleaves hinner]
    show s.located _ (Value.exact (-e.value env)) = _
    rw [value] at hvalue ⊢
    rw [exact_of_isOperand hvalue]
    rfl
  | group _ e _ ih | ofSigned e ih | ofOperand e ih | ofProduct e ih => exact ih hleaves hvalues _
  | product a before behind b iha ihb =>
    obtain ⟨hvalue, hinner⟩ := List.forall_mem_cons.1 hvalues
    obtain ⟨ha, hb⟩ := List.forall_mem_append.1 hinner
    obtain ⟨hleft, hright⟩ := List.forall_mem_append.1 hleaves
    exact eval_binary (iha hleft ha line) (ihb hright hb _)
      (apply_operator .mul rfl (ha _ (value_mem_values env a)) (hb _ (value_mem_values env b)) hvalue)
  | sum op a before behind b iha ihb =>
    obtain ⟨hvalue, hinner⟩ := List.forall_mem_cons.1 hvalues
    obtain ⟨ha, hb⟩ := List.forall_mem_append.1 hinner
    obtain ⟨hleft, hright⟩ := List.forall_mem_append.1 hleaves
    have hm := ha _ (value_mem_values env a)
    have hn := hb _ (value_mem_values env b)
    refine eval_binary (iha hleft ha line) (ihb hright hb _) ?_
    cases op with
    | plus => exact apply_operator .add rfl hm hn hvalue
    | minus => exact apply_operator .sub rfl hm hn hvalue

end Arithmetic

/-! ## Ranges -/

theorem natural_int (n : Int) : Arguments.natural 32 (.int n) =
    if 0 ≤ n ∧ n < Nat.pow 2 32 then .ok n.toNat else .error Value.invalid := by
  have hbound : n ≤ Nat.pow 2 32 - 1 ↔ n < Nat.pow 2 32 := by omega
  rw [Arguments.natural, Arguments.integer, Value.bounded?]
  simp only [hbound]
  split_ifs <;> rfl

section
variable {x y : Value} {m n : Nat}

theorem run_counting_first (h : Arguments.natural 32 x = .error Value.invalid) :
    Toolbox.counting.run [x, y] = .error Value.invalid := by
  simp [Toolbox.counting, Arguments.run, Arguments.required, bind, StateT.bind, Except.map, Except.bind, h]

theorem run_counting_last (hx : Arguments.natural 32 x = .ok m) (hy : Arguments.natural 32 y = .error Value.invalid)
    (hmissing : y.isMissing = false) : Toolbox.counting.run [x, y] = .error Value.invalid := by
  simp [Toolbox.counting, Arguments.run, Arguments.required, Arguments.optional, bind, StateT.bind, Except.map,
    Except.bind, hx, hy, hmissing]

theorem run_counting_both (hx : Arguments.natural 32 x = .ok m) (hy : Arguments.natural 32 y = .ok n)
    (hmissing : y.isMissing = false) : Toolbox.counting.run [x, y] =
      if 100000 < n - m then .error Value.invalid
      else .ok (.series ((List.range (n - m)).map fun i => .ofNat (m + i))) := by
  simp only [Arguments.run, Except.map, Toolbox.counting, bind, StateT.bind, Except.bind, Arguments.required, hx,
    Arguments.optional, hmissing, Bool.false_eq_true, ↓reduceIte, hy, Arguments.done, Option.getD_none,
    Nat.succ_ne_self, Nat.add_one_sub_one, Nat.div_one, false_or, Nat.mul_one]
  split_ifs <;> rfl

end

/-- What `range` answers for integers. -/
theorem run_counting (first last : Int) : Toolbox.counting.run [.int first, .int last] =
    if 0 ≤ first ∧ first < Nat.pow 2 32 ∧ 0 ≤ last ∧ last < Nat.pow 2 32 ∧ last - first ≤ 100000 then
      .ok (.series ((countUp first last).map .int))
    else .error Value.invalid := by
  have hfirst := natural_int first
  have hlast := natural_int last
  by_cases hf : 0 ≤ first ∧ first < Nat.pow 2 32
  · by_cases hl : 0 ≤ last ∧ last < Nat.pow 2 32
    · rw [if_pos hf] at hfirst
      rw [if_pos hl] at hlast
      have hlength : last.toNat - first.toNat = (last - first).toNat := by omega
      have hitems : (List.range (last.toNat - first.toNat)).map (fun i => Value.ofNat (first.toNat + i)) =
          (countUp first last).map .int := by
        rw [countUp_eq_map, List.map_map, hlength]
        refine List.map_congr_left fun i _ => congrArg Value.int ?_
        show ((first.toNat + i : Nat) : Int) = first + i
        omega
      rw [run_counting_both hfirst hlast rfl, hitems]
      by_cases hsize : last - first ≤ 100000
      · rw [if_neg (by omega), if_pos ⟨hf.1, hf.2, hl.1, hl.2, hsize⟩]
      · rw [if_pos (by omega), if_neg (by tauto)]
    · rw [if_pos hf] at hfirst
      rw [if_neg hl] at hlast
      rw [run_counting_last hfirst hlast rfl, if_neg (by tauto)]
  · rw [if_neg hf] at hfirst
    rw [run_counting_first hfirst, if_neg (by tauto)]

/-! ## Rounds -/

namespace CountingHeader

variable {σ : Type} {env : Surroundings σ} {frames : List Frame} {memory : σ} {around : Chars → Value} {v : Chars}

/-- The values of names in a round, over those of the names around the loop. -/
def counted (v : Chars) (i : Int) (around : Chars → Value) (name : Chars) : Value :=
  if name = v then .int i else around name

/-- A frame in which nothing but the variable of a loop is bound. -/
def Counts (v : Chars) (f : Frame) : Prop := ∀ name, name ≠ v → f.locals.lookup name = none

/-- The frame of a round. -/
def inFrame (v : Chars) (f : Frame) (cycle : Cycle) (i : Int) : Frame :=
  ({ f with cycle := some cycle } : Frame).bind v (.int i)

theorem counts_inFrame {f : Frame} (h : Counts v f) (cycle : Cycle) (i : Int) : Counts v (inFrame v f cycle i) := by
  intro name hname
  rw [inFrame, Frame.bind, Table.lookup_put, if_neg hname]
  exact h name hname

/-- In a round, the variable stands for the number, and the other names for what they stand for around the loop. -/
theorem sees_inFrame {tools : Toolbox} {f : Frame} (h : Sees tools frames around) (hf : Counts v f) (cycle : Cycle)
    (i : Int) : Sees tools (inFrame v f cycle i :: frames) (counted v i around) := by
  intro name hloop
  rw [counted]
  by_cases hname : name = v
  · subst hname
    rw [if_pos rfl, lookupIn, List.findSome?_cons, inFrame, Frame.lookup_bind_self]
    rfl
  · have hlocals : (inFrame v f cycle i).locals.lookup name = none := counts_inFrame hf cycle i name hname
    have hcycle : (inFrame v f cycle i).cycle = some cycle := rfl
    have hlookup : (inFrame v f cycle i).lookup name = none := by
      simp only [Frame.lookup, hlocals, hcycle, hloop, if_false]
    rw [if_neg hname, lookupIn, List.findSome?_cons, hlookup]
    exact h name hloop

/-- The body of a loop is executed in the frame of the round. -/
theorem endsRound_counter {body : List Stmt} {out : Option Chars} {f : Frame} (hf : Counts v f) {cycle : Cycle} {i : Int}
    (h : Writes env body ⟨inFrame v f cycle i :: frames, memory⟩ out) :
    EndsRound (Counts v) frames memory ((do
      env.bind (.name v) (.int i)
      Stmt.execAll env body : Run σ (Flow × Chars)).run ⟨{ f with cycle := some cycle } :: frames, memory⟩) out := by
  have hrun : (do
      env.bind (.name v) (.int i)
      Stmt.execAll env body : Run σ (Flow × Chars)).run ⟨{ f with cycle := some cycle } :: frames, memory⟩ =
        (Stmt.execAll env body).run ⟨inFrame v f cycle i :: frames, memory⟩ := rfl
  rw [hrun]
  cases out with
  | none => exact h
  | some s => exact ⟨_, counts_inFrame hf cycle i, h⟩

/-! ## Counting loops -/

variable {h : CountingHeader} {ints : Leaf → Int}

/-- Whether a loop is one that `range` can count through: both bounds are natural numbers of 32 bits, and the rounds are
no more than a hundred thousand. -/
def Countable (h : CountingHeader) (ints : Leaf → Int) : Prop :=
  h.first.value < Nat.pow 2 32 ∧ 0 ≤ h.stop ints ∧ h.stop ints < Nat.pow 2 32 ∧ h.stop ints - h.first.value ≤ 100000

instance (h : CountingHeader) (ints : Leaf → Int) : Decidable (h.Countable ints) := inferInstanceAs (Decidable (_ ∧ _))

/-- What a header needs of the values of names: its leaves are integers, nothing in the end of its range leaves the
integers that are computed with, and `range` is that of the engine. -/
structure Holds (h : CountingHeader) (around : Chars → Value) (ints : Leaf → Int) : Prop where
  leaves : ∀ x ∈ (h.rangeEnd .minijinja).leaves, x.valueIn around = .int (ints x)
  values : ∀ n ∈ (h.rangeEnd .minijinja).values ints, Value.isOperand n = true
  range : around "range".toList = .callable "range".toList

theorem value_rangeEnd_minijinja (h : CountingHeader) (ints : Leaf → Int) :
    (h.rangeEnd .minijinja).value ints = h.stop ints := by
  rw [rangeEnd, Arithmetic.value_rangeEnd, stop]
  cases h.inclusive <;> rfl

/-- No helper stands in front of the function that every template has. -/
theorem callNamed_range (tools : Toolbox) (args : List Value) :
    tools.callNamed "range".toList args = Toolbox.counting.run args := by
  have hnone : tools.helper? "range".toList = none := by
    have every : ∀ g ∈ Helper.all, g.name ≠ "range".toList := by decide +kernel
    exact List.find?_eq_none.2 fun g _ h => every g g.mem_all (eq_of_beq h)
  have hglobal : Toolbox.global? "range".toList = some Toolbox.counting := rfl
  rw [Toolbox.callNamed, hnone]
  simp only [hglobal]

/-- The range of a header goes through its rounds. -/
theorem eval_rangeExpr {s : Scope} (hsees : Sees s.tools s.frames around) (hholds : h.Holds around ints) :
    (rangeExpr 1 h.start (h.rangeEnd .minijinja)).eval s =
      if h.Countable ints then .ok (.series ((h.rounds ints).map .int))
      else .error (Value.invalid.at_ ⟨s.template, (rangeExpr 1 h.start (h.rangeEnd .minijinja)).lastLine⟩) := by
  have hlast := (h.rangeEnd .minijinja).eval_expr hsees hholds.leaves hholds.values (1 + lineBreaks h.start.target)
  rw [value_rangeEnd_minijinja] at hlast
  have hlookup : s.lookup? "range".toList = some (.callable "range".toList) := by
    have hrange := hsees "range".toList (by decide)
    rw [hholds.range] at hrange
    rw [Scope.lookup?]
    cases hfound : (lookupIn s.frames "range".toList).or (s.tools.function? "range".toList) with
    | none =>
      rw [hfound] at hrange
      cases hrange
    | some v =>
      rw [hfound] at hrange
      exact congrArg some hrange
  have hcall : s.call "range".toList [.int h.first.value, .int (h.stop ints)] =
      if h.Countable ints then .ok (.series ((h.rounds ints).map .int)) else .error Value.invalid := by
    have hbounds : (0 ≤ (h.first.value : Int) ∧ (h.first.value : Int) < Nat.pow 2 32 ∧ 0 ≤ h.stop ints ∧
        h.stop ints < Nat.pow 2 32 ∧ h.stop ints - h.first.value ≤ 100000) ↔ h.Countable ints := by
      rw [Countable]
      omega
    rw [Scope.call, if_neg (by decide), hlookup]
    show s.tools.callNamed _ _ = _
    rw [callNamed_range, run_counting]
    simp only [hbounds]
    rfl
  have hargs : Expr.evalAll s [h.start.expr 1, (h.rangeEnd .minijinja).expr (1 + lineBreaks h.start.target)] =
      .ok [.int h.first.value, .int (h.stop ints)] := by
    rw [Expr.evalAll, Expr.evalAll, hlast]
    rfl
  rw [rangeExpr, Expr.eval, hargs]
  show s.located _ (s.call "range".toList [.int h.first.value, .int (h.stop ints)]) = _
  rw [hcall]
  split <;> rfl

/-- What a counting loop writes: its body in every round, one after the other. It fails if its range does. -/
theorem exec_stmt (hsees : Sees env.tools frames around) (hholds : h.Holds around ints) {body : LoopTemplate}
    (hbody : body.WellFormed) (memory : σ) :
    let run := ((h.stmt .minijinja body).exec env).run ⟨frames, memory⟩
    if h.Countable ints then
      match (h.rounds ints).mapM fun i => body.eval 1 (counted h.var.1 i around) with
      | some texts => run = (.ok (.onward, texts.flatten), ⟨frames, memory⟩)
      | none => ∃ e r', run = (.error e, r')
    else ∃ e r', run = (.error e, r') ∧ e.kind = .invalidOperation := by
  intro run
  have heval := eval_rangeExpr (s := ⟨frames, env.tools, env.template, env.escaping⟩) hsees hholds
  split
  · rename_i hcountable
    rw [if_pos hcountable] at heval
    have hround (f : Frame) (cycle : Cycle) (i : Int) (hf : Counts h.var.1 f) :=
      endsRound_counter hf (LoopTemplate.writes_stmts hbody (sees_inFrame hsees hf cycle i) 1 (h.endLine .minijinja) memory)
    exact Stmt.run_loop (LoopTemplate.run_value_of_eval heval) Value.int _ rfl hround fun _ _ => rfl
  · rename_i hcountable
    rw [if_neg hcountable] at heval
    refine ⟨Value.invalid.at_ ⟨env.template, (rangeExpr 1 h.start (h.rangeEnd .minijinja)).lastLine⟩,
      ⟨frames, memory⟩, ?_, rfl⟩
    simp only [run, stmt, Stmt.exec]
    exact Run.run_bind_error (LoopTemplate.run_value_of_eval_error heval) _

end CountingHeader
end ViewBridge
