import ViewBridge.Proofs.Counting.Arithmetic
/-!
# Counting loops

A loop tag whose collection is the header of a loop that counts up becomes a loop over a range. The upper end of
the range is the bound of the header, or one more or one less: one dialect counts up to the end, the other to the
number before it. A range whose end lies before its start is empty in one dialect, and in the other it counts down.

Results:
* `readCounting_source`: a header is read as what it says.
* `emitLoop_source`: what the loop tag becomes.
* `range_eq_rounds_iff`: the range goes through the rounds of the loop, except where there are none.
-/
namespace ViewBridge

open Translator (IsIdentifier)
open Expression

/-! ## Counting -/

/-- The numbers from the first one on that lie below another. -/
def countUp (first stop : Int) : List Int :=
  if first < stop then first :: countUp (first + 1) stop else []
termination_by (stop - first).toNat

/-- The numbers from the first one down to the last one. -/
def countDown (first last : Int) : List Int :=
  if last ≤ first then first :: countDown (first - 1) last else []
termination_by (first + 1 - last).toNat

theorem countUp_eq_nil_iff {first stop : Int} : countUp first stop = [] ↔ stop ≤ first := by
  rw [countUp]
  split <;> simp <;> omega

theorem countDown_eq_nil_iff {first last : Int} : countDown first last = [] ↔ first < last := by
  rw [countDown]
  split <;> simp <;> omega

/-- Counting up goes through numbers without a gap. -/
theorem countUp_eq_map (first stop : Int) :
    countUp first stop = (List.range (stop - first).toNat).map fun i : Nat => first + (i : Int) := by
  induction hn : (stop - first).toNat generalizing first with
  | zero => rw [countUp_eq_nil_iff.2 (by omega), List.range_zero, List.map_nil]
  | succ n ih =>
    rw [countUp, if_pos (by omega), ih (first + 1) (by omega), List.range_succ_eq_map, List.map_cons, List.map_map]
    refine congrArg₂ List.cons (by simp) (List.map_congr_left fun i _ => ?_)
    simp only [Function.comp_apply, Nat.succ_eq_add_one]
    omega

namespace Dialect

/-- What `range` goes through: one dialect includes the end and counts down to one that lies before the start, the
other does neither. -/
def range (d : Dialect) (first last : Int) : List Int :=
  match d with
  | twig => if first ≤ last then countUp first (last + 1) else countDown first last
  | minijinja => countUp first last

/-- The end of the range that a dialect has for a bound. -/
def endOf (d : Dialect) (inclusive : Bool) (last : Int) : Int :=
  match d, inclusive with
  | twig, true => last
  | minijinja, false => last
  | twig, false => last - 1
  | minijinja, true => last + 1

end Dialect

/-! ## The end of the range -/

/-- No blanks. -/
def Gap.none : Gap := ⟨[], List.forall_mem_nil _⟩

/-- One blank. -/
def Gap.one : Gap := ⟨[' '], List.forall_mem_singleton.2 rfl⟩

def Decimal.one : Decimal := ⟨['1'], List.cons_ne_nil _ _, List.forall_mem_singleton.2 rfl⟩

namespace Arithmetic

/-- An expression as one operand. -/
def closed (e : Arithmetic .sum) : Arithmetic .sum :=
  if e.target.any Text.isBlank then
    .ofProduct (.ofOperand (.ofSigned (.group Gap.none e Gap.none)))
  else e

/-- An expression with a number added or taken away. -/
def shifted (op : Sign) (e : Arithmetic .sum) : Arithmetic .sum :=
  .sum op e.closed Gap.one Gap.one (.ofOperand (.ofSigned (.number Decimal.one)))

/-- The upper end of the range of a loop that counts up to an expression. -/
def rangeEnd (d : Dialect) (inclusive : Bool) (e : Arithmetic .sum) : Arithmetic .sum :=
  match d, inclusive with
  | .twig, true => e.closed
  | .minijinja, false => e.closed
  | .twig, false => e.shifted .minus
  | .minijinja, true => e.shifted .plus

theorem target_closed (e : Arithmetic .sum) : e.closed.target = operand e.target := by
  have hbar : '|' ∉ e.target := e.not_mem_written Leaf.chars_target (by decide)
  have hany : (e.target.any fun c => Text.isBlank c || c == '|') = e.target.any Text.isBlank := by
    rw [Bool.eq_iff_iff, List.any_eq_true, List.any_eq_true]
    refine exists_congr fun c => and_congr_right fun hc => ?_
    simp [show c ≠ '|' from fun h => hbar (h ▸ hc)]
  rw [operand, hany, closed]
  split
  · simp [target, written, Gap.none]
  · rfl

theorem target_rangeEnd (d : Dialect) (inclusive : Bool) (e : Arithmetic .sum) :
    (e.rangeEnd d inclusive).target = d.upperBound e.target inclusive := by
  have hshifted (op : Sign) : (e.shifted op).target = operand e.target ++ [' ', op.mark, ' ', '1'] := by
    rw [shifted, target, written, ← target, target_closed]
    rfl
  cases d <;> cases inclusive <;> simp only [rangeEnd, target_closed, hshifted, Dialect.upperBound] <;> rfl

theorem value_rangeEnd (d : Dialect) (inclusive : Bool) (e : Arithmetic .sum) (env : Leaf → Int) :
    (e.rangeEnd d inclusive).value env = d.endOf inclusive (e.value env) := by
  have hclosed : e.closed.value env = e.value env := by
    rw [closed]
    split <;> rfl
  have hone : ((Decimal.value Decimal.one : Nat) : Int) = 1 := rfl
  cases d <;> cases inclusive <;> simp only [rangeEnd, shifted, value, hclosed, hone, Dialect.endOf]

end Arithmetic

/-! ## Spans -/

section
variable {p : Char → Bool} {s r : Chars} {c : Char}

/-- A span stops where something of another kind starts. -/
theorem Text.span_append (hs : ∀ c ∈ s, p c = true) (hr : ∀ c ∈ r.head?, p c = false) :
    (s ++ r).takeWhile p = s ∧ (s ++ r).dropWhile p = r := by
  cases r with
  | nil => rw [List.append_nil]; exact ⟨Text.takeWhile_eq_self hs, Text.dropWhile_eq_nil hs⟩
  | cons c r => exact Text.span_append_cons hs (hr c rfl) r

/-- The blanks beyond ASCII. -/
def blankTable : List (Nat × Nat) :=
  [(133, 133), (160, 160), (5760, 5760), (8192, 8202), (8232, 8233), (8239, 8239), (8287, 8287), (12288, 12288)]

/-- Blanks of any script are no word characters and no digits. -/
theorem isWordChar_of_isBlank (h : Text.isBlank c = true) : Text.isWordChar c = false ∧ Text.isAnyDigit c = false := by
  have hname := isNameChar_of_isBlank h
  have hdigit : Text.isDigit c = false := by
    rw [Text.isNameChar, Bool.or_eq_false_iff] at hname
    exact hname.2
  have htable : 128 ≤ c.toNat → Text.inRanges blankTable c.toNat = true := by
    simp only [Text.isBlank, Bool.or_eq_true, Bool.and_eq_true, decide_eq_true_eq, beq_iff_eq] at h
    simp only [Text.inRanges, blankTable, List.any_cons, List.any_nil, Bool.or_false, Bool.or_eq_true, Bool.and_eq_true,
      decide_eq_true_eq]
    omega
  rw [Text.isWordChar, Text.isAnyDigit]
  split
  · exact ⟨hname, hdigit⟩
  · have hblank := htable (by omega)
    exact ⟨Text.inRanges_of_disjoint (by decide +kernel) hblank, Text.inRanges_of_disjoint (by decide +kernel) hblank⟩

/-- What starts behind blanks is of another kind if they are. -/
theorem head_blanks (hblank : ∀ c, Text.isBlank c = true → p c = false) (gap : Blanks) (hc : p c = false) (r : Chars) :
    ∀ d ∈ (gap.1 ++ c :: r).head?, p d = false := by
  obtain ⟨_ | ⟨b, gap⟩, hgap⟩ := gap
  · rintro _ ⟨⟩
    exact hc
  · rintro _ ⟨⟩
    exact hblank b (hgap b List.mem_cons_self)

/-- Blanks are dropped in front of something else. -/
theorem dropWhile_blanks (gap : Blanks) (hr : ∀ c ∈ r.head?, Text.isBlank c = false) :
    (gap.1 ++ r).dropWhile Text.isBlank = r := (Text.span_append gap.2 hr).2

/-- The bound of a header is what stands between blanks. -/
theorem Trimmed.readBound (hs : Trimmed s) (before behind : Blanks) :
    Directive.readBound (before.1 ++ (s ++ behind.1)) = some s := by
  have hhead : ∀ c ∈ (s ++ behind.1).head?, Text.isBlank c = false := by
    rw [List.head?_append_of_ne_nil _ hs.ne_nil]
    exact hs.head
  have hend : Text.dropEndWhile Text.isBlank (s ++ behind.1) = s := by
    have hlast : ∀ c ∈ s.reverse.head?, Text.isBlank c = false := by
      rw [List.head?_reverse]
      exact hs.last
    rw [Text.dropEndWhile, List.reverse_append,
      (Text.span_append (fun c hc => behind.2 c (List.mem_reverse.1 hc)) hlast).2, List.reverse_reverse]
  rw [Directive.readBound, dropWhile_blanks before hhead]
  split
  · rename_i hnil
    exact absurd (List.append_eq_nil_iff.1 hnil).1 hs.ne_nil
  · rw [hend]

/-- A comparison is read with its bound. -/
theorem Trimmed.readComparison (hs : Trimmed s) (hequal : '=' ∉ s) (inclusive : Bool) (before behind : Blanks) :
    Directive.readComparison ('<' :: ((if inclusive then ['='] else []) ++ (before.1 ++ (s ++ behind.1)))) =
      some (inclusive, s) := by
  have hbound := hs.readBound before behind
  cases inclusive with
  | true =>
    have hafter : Text.after? "<=".toList ('<' :: '=' :: (before.1 ++ (s ++ behind.1))) =
        some (before.1 ++ (s ++ behind.1)) := rfl
    simp only [if_true, List.cons_append, List.nil_append, Directive.readComparison, hafter, hbound]
  | false =>
    have hhead : ∀ c ∈ (before.1 ++ (s ++ behind.1)).head?, c ≠ '=' := by
      rintro c hc rfl
      have hmem := List.mem_of_mem_head? hc
      rw [List.mem_append, List.mem_append] at hmem
      rcases hmem with h | h | h
      · cases before.2 _ h
      · exact hequal h
      · cases behind.2 _ h
    have hnone : Text.after? "<=".toList ('<' :: (before.1 ++ (s ++ behind.1))) = none := by
      rw [Option.eq_none_iff_forall_ne_some]
      intro rest hrest
      have hrest := (List.cons.inj (Text.after?_eq_some_iff.1 hrest)).2
      exact hhead '=' (by rw [hrest]; rfl) rfl
    have hafter : Text.after? "<".toList ('<' :: (before.1 ++ (s ++ behind.1))) =
        some (before.1 ++ (s ++ behind.1)) := rfl
    simp only [Bool.false_eq_true, if_false, List.nil_append, Directive.readComparison, hnone, hafter,
      Option.bind_eq_bind, Option.bind_some, hbound]
    rfl

theorem isWordChar_of_isNameChar (h : Text.isNameChar c = true) : Text.isWordChar c = true := by
  have hrange := toNat_of_isNameChar h
  rw [Text.isWordChar, if_pos (by omega), h]

theorem isAnyDigit_of_isDigit (h : Text.isDigit c = true) : Text.isAnyDigit c = true := by
  have hrange := toNat_of_isNameChar (isNameChar_of_isDigit h)
  rw [Text.isAnyDigit, if_pos (by omega), h]

/-- A variable is read with the blanks behind it. -/
theorem readCounter_append {name : Chars} (hname : IsIdentifier name) (gap : Blanks)
    (hc : Text.isBlank c = false ∧ Text.isWordChar c = false) (r : Chars) :
    Directive.readCounter ('$' :: (name ++ (gap.1 ++ c :: r))) = some (name, c :: r) := by
  have hspan := Text.span_append (fun d hd => isWordChar_of_isNameChar (hname.2 d hd))
    (head_blanks (fun d hd => (isWordChar_of_isBlank hd).1) gap hc.2 r)
  have hafter : Text.after? "$".toList ('$' :: (name ++ (gap.1 ++ c :: r))) = some (name ++ (gap.1 ++ c :: r)) := rfl
  have hblanks : (gap.1 ++ c :: r).dropWhile Text.isBlank = c :: r :=
    dropWhile_blanks gap (by rintro _ ⟨⟩; exact hc.1)
  rw [Directive.readCounter]
  simp only [hafter, Option.bind_eq_bind, Option.bind_some, hspan.1, hspan.2, if_neg hname.ne_nil, hblanks]

end

/-! ## Headers -/

/-- A name that a loop can count with. -/
abbrev Counter := { s : Chars // LoopTemplate.IsVariable s ∧ s ∉ ["self".toList, "in".toList] }

/-- The header of a loop that counts up from a number, up to an expression or to the number before it, with blanks
in eight places. -/
structure CountingHeader where
  var : Counter
  first : Decimal
  inclusive : Bool
  last : Arithmetic .sum
  gaps : Fin 8 → Blanks

namespace CountingHeader

/-- A header as it is written. -/
def source (h : CountingHeader) : Chars :=
  '$' :: (h.var.1 ++ ((h.gaps 0).1 ++ '=' :: ((h.gaps 1).1 ++ (h.first.1 ++ ((h.gaps 2).1 ++ ';' :: ((h.gaps 3).1 ++
    '$' :: (h.var.1 ++ ((h.gaps 4).1 ++ '<' :: ((if h.inclusive then ['='] else []) ++ ((h.gaps 5).1 ++
      (h.last.source ++ ((h.gaps 6).1 ++ ';' :: ((h.gaps 7).1 ++ '$' :: (h.var.1 ++ ['+', '+']))))))))))))))

/-- The number that the variable stays below. -/
def stop (h : CountingHeader) (env : Leaf → Int) : Int :=
  if h.inclusive then h.last.value env + 1 else h.last.value env

/-- The values of the variable in the rounds of the loop. -/
def rounds (h : CountingHeader) (env : Leaf → Int) : List Int := countUp h.first.value (h.stop env)

/-- The upper end of the range that the loop becomes. -/
def rangeEnd (h : CountingHeader) (d : Dialect) : Arithmetic .sum := h.last.rangeEnd d h.inclusive

/-- The loop tag in the target dialects. -/
def target (h : CountingHeader) (d : Dialect) : Chars :=
  Dialect.tag ("for ".toList ++ h.var.1 ++ " in range(".toList ++ h.first.1 ++ ", ".toList ++
    (h.rangeEnd d).target ++ ")".toList)

variable {h : CountingHeader} {d : Dialect} {env : Leaf → Int}

/-- A header is read as what it says. -/
theorem readCounting_source (h : CountingHeader) :
    Directive.readCounting h.source = some ⟨h.var.1, h.first.1, h.last.source, h.inclusive⟩ := by
  have hname := h.var.2.1.1
  have hafter (m : Char) (r : Chars) : Text.after? [m] (m :: r) = some r := Text.after?_eq_some_iff.2 rfl
  have hblanks (gap : Blanks) {c : Char} (hc : Text.isBlank c = false) (r : Chars) :
      (gap.1 ++ c :: r).dropWhile Text.isBlank = c :: r := dropWhile_blanks gap (by rintro _ ⟨⟩; exact hc)
  -- the three parts, from the last one to the first
  let step := (h.gaps 7).1 ++ '$' :: (h.var.1 ++ ['+', '+'])
  let part := '<' :: ((if h.inclusive then ['='] else []) ++ ((h.gaps 5).1 ++ (h.last.source ++ (h.gaps 6).1)))
  let test := (h.gaps 3).1 ++ '$' :: (h.var.1 ++ ((h.gaps 4).1 ++ (part ++ ';' :: step)))
  have hsource : h.source = '$' :: (h.var.1 ++ ((h.gaps 0).1 ++ '=' ::
      ((h.gaps 1).1 ++ (h.first.1 ++ ((h.gaps 2).1 ++ ';' :: test))))) := by
    simp [source, test, part, step]
  have hstep : step.dropWhile Text.isBlank = '$' :: (h.var.1 ++ ['+', '+']) := hblanks _ rfl _
  have hstepped := Text.span_append (p := Text.isWordChar) (r := ['+', '+'])
    (fun c hc => isWordChar_of_isNameChar (hname.2 c hc)) (by rintro _ ⟨⟩; rfl)
  have hpart : ∀ c ∈ part, (c != ';') = true := by
    have hgap (gap : Blanks) : ';' ∉ gap.1 := fun hmem => by cases gap.2 _ hmem
    have hlast : ';' ∉ h.last.source := h.last.not_mem_written Leaf.chars_source (by decide)
    have hpart : ';' ∉ part := by
      simp only [part, List.mem_cons, List.mem_append, hgap, hlast, or_false, not_or]
      exact ⟨by decide, by split <;> decide⟩
    intro c hc
    rw [bne_iff_ne]
    rintro rfl
    exact hpart hc
  have htest := Text.span_append_cons hpart (q := ';') rfl step
  have hcompared := readCounter_append hname (h.gaps 4) (c := '<') ⟨rfl, rfl⟩
    ((if h.inclusive then ['='] else []) ++ ((h.gaps 5).1 ++ (h.last.source ++ (h.gaps 6).1)) ++ ';' :: step)
  have hcomparison := h.last.trimmed_source.readComparison
    (h.last.not_mem_written Leaf.chars_source (by decide)) h.inclusive (h.gaps 5) (h.gaps 6)
  have hfirst := Text.span_append (fun c hc => isAnyDigit_of_isDigit (h.first.2.2 c hc))
    (head_blanks (fun c hc => (isWordChar_of_isBlank hc).2) (h.gaps 2) (c := ';') rfl test)
  have hfirstBlank : ((h.gaps 1).1 ++ (h.first.1 ++ ((h.gaps 2).1 ++ ';' :: test))).dropWhile Text.isBlank =
      h.first.1 ++ ((h.gaps 2).1 ++ ';' :: test) := by
    refine dropWhile_blanks _ fun c hc => ?_
    rw [List.head?_append_of_ne_nil _ h.first.2.1] at hc
    exact isBlank_of_isNameChar (isNameChar_of_isDigit (h.first.2.2 c (List.mem_of_mem_head? hc)))
  have htestBlank : test.dropWhile Text.isBlank = _ := hblanks _ rfl _
  have hequals (r : Chars) : Text.after? "=".toList ('=' :: r) = some r := rfl
  have hsemicolon (r : Chars) : Text.after? ";".toList (';' :: r) = some r := rfl
  have hsigil (r : Chars) : Text.after? "$".toList ('$' :: r) = some r := rfl
  have hpartEq : part ++ ';' :: step = '<' :: ((if h.inclusive then ['='] else []) ++
      ((h.gaps 5).1 ++ (h.last.source ++ (h.gaps 6).1)) ++ ';' :: step) := rfl
  rw [hsource, Directive.readCounting, readCounter_append hname (h.gaps 0) ⟨rfl, rfl⟩]
  simp only [Option.bind_eq_bind, Option.bind_some, hequals, hfirstBlank, hfirst.1, hfirst.2, if_neg h.first.2.1,
    hblanks (h.gaps 2) (c := ';') rfl test, hsemicolon, htestBlank, hpartEq, hcompared]
  rw [← hpartEq, htest.1, htest.2, hcomparison]
  simp only [Option.bind_some, hsemicolon, hstep, hsigil, hstepped.1, hstepped.2]
  rfl

/-- A loop tag with a header becomes a loop over a range, whatever names it gives. -/
theorem emitLoop_source (t : Translator) (depth : Int) (key value : Option Chars) (h : CountingHeader) :
    t.emitLoop depth ⟨h.source, key, value⟩ = h.target t.dialect := by
  rw [Translator.emitLoop, readCounting_source]
  simp only [Arithmetic.translate_written]
  rw [Dialect.forRange, ← Arithmetic.target_rangeEnd]
  rfl

/-- The range of a loop is that of its rounds, unless it has none and the range counts down instead. -/
theorem range_eq_rounds_iff :
    d.range h.first.value ((h.rangeEnd d).value env) = h.rounds env ↔ d = .minijinja ∨ h.rounds env ≠ [] := by
  have hend : (h.rangeEnd d).value env = d.endOf h.inclusive (h.last.value env) := Arithmetic.value_rangeEnd ..
  rw [hend]
  cases d with
  | minijinja =>
    have hstop : Dialect.endOf .minijinja h.inclusive (h.last.value env) = h.stop env := by
      rw [stop]
      cases h.inclusive <;> rfl
    rw [hstop]
    exact ⟨fun _ => .inl rfl, fun _ => rfl⟩
  | twig =>
    have hstop : Dialect.endOf .twig h.inclusive (h.last.value env) + 1 = h.stop env := by
      rw [stop]
      cases h.inclusive <;> simp [Dialect.endOf]
    have hrounds : h.rounds env = [] ↔ h.stop env ≤ h.first.value := countUp_eq_nil_iff
    rw [Dialect.range, hstop, ne_eq, hrounds]
    constructor
    · intro hrange
      refine .inr fun hpast => ?_
      rw [hrounds.2 hpast, if_neg (by omega), countDown_eq_nil_iff] at hrange
      omega
    · rintro (hd | hpast)
      · cases hd
      · rw [if_pos (by omega)]
        rfl

end CountingHeader
end ViewBridge
