import ViewBridge.CommandLine.Argument
/-!
# One reading of the arguments

A reading from left to right lets every flag that has a value take the argument behind it, whatever that is; which
arguments are taken is a matter of their positions alone. The operand is found by this reading. The value of an option
and a switch are looked for among all arguments, those included that are taken: there a name that looks like a flag is
read twice.

Results:
* `operand?_eq_some_iff`: the operand is the first free argument that can be one.
* `value?_eq_some_iff`: the value of an option stands behind its first spelling, be that free or taken.
* `value?_of_taken`: behind a taken spelling the answer is an argument that no flag takes.
* `reading_answers`: where the three agree with the one reading, and what they answer where they do not.
-/
namespace ViewBridge.Argument

variable {arguments rest : List Chars} {a b s flag v : Chars} {o : CommandOption} {p : Chars → Bool} {i : Nat}

/-- Whether the argument at a position is the value of the flag in front of it: a flag that has a value takes the
argument behind it, unless it is taken itself. -/
def isTaken (arguments : List Chars) : Nat → Bool
  | 0 => false
  | i + 1 => !isTaken arguments i && arguments[i]?.any takesValue

/-- The first of the arguments with a property, at its position. -/
structure IsFirst (p : Chars → Bool) (arguments : List Chars) (i : Nat) (a : Chars) : Prop where
  here : arguments[i]? = some a
  holds : p a = true
  before : ∀ j < i, ∀ b, arguments[j]? = some b → p b = false

/-- The first of the free arguments with a property, at its position. -/
structure IsFirstFree (p : Chars → Bool) (arguments : List Chars) (i : Nat) (a : Chars) : Prop where
  here : arguments[i]? = some a
  free : isTaken arguments i = false
  holds : p a = true
  before : ∀ j < i, ∀ b, arguments[j]? = some b → isTaken arguments j = false → p b = false

/-! ## Positions behind the first argument -/

theorem isTaken_of_word (ha : takesValue a = false) (i : Nat) : isTaken (a :: rest) (i + 1) = isTaken rest i := by
  induction i with
  | zero => simp [isTaken, ha]
  | succ i ih => rw [isTaken, ih, isTaken, List.getElem?_cons_succ]

theorem isTaken_of_flag (ha : takesValue a = true) (i : Nat) :
    isTaken (a :: b :: rest) (i + 2) = isTaken rest i := by
  induction i with
  | zero => simp [isTaken, ha]
  | succ i ih => rw [isTaken, ih, isTaken, List.getElem?_cons_succ, List.getElem?_cons_succ]

theorem isTaken_behind_flag (ha : takesValue a = true) : isTaken (a :: rest) 1 = true := by
  simp [isTaken, ha]

/-- The first free argument is the word in front or stands behind it. -/
theorem isFirstFree_word_iff (ha : takesValue a = false) :
    IsFirstFree p (a :: rest) i s ↔
      (i = 0 ∧ s = a ∧ p a = true) ∨ ∃ j, i = j + 1 ∧ p a = false ∧ IsFirstFree p rest j s := by
  constructor
  · rintro ⟨here, free, holds, before⟩
    cases i with
    | zero =>
      obtain rfl : a = s := Option.some.inj here
      exact .inl ⟨rfl, rfl, holds⟩
    | succ i =>
      refine .inr ⟨i, rfl, before 0 (by omega) a rfl rfl, here, ?_, holds, fun j hj b hb hfree => ?_⟩
      · rwa [isTaken_of_word ha] at free
      · exact before (j + 1) (by omega) b hb (by rwa [isTaken_of_word ha])
  · rintro (⟨rfl, rfl, holds⟩ | ⟨j, rfl, hfront, here, free, holds, before⟩)
    · exact ⟨rfl, rfl, holds, fun j hj => absurd hj (Nat.not_lt_zero j)⟩
    · refine ⟨here, by rwa [isTaken_of_word ha], holds, fun i hi b hb hfree => ?_⟩
      cases i with
      | zero =>
        obtain rfl : a = b := Option.some.inj hb
        exact hfront
      | succ i =>
        rw [isTaken_of_word ha] at hfree
        exact before i (by omega) b hb hfree

/-- The first free argument is the flag in front or stands behind its value. -/
theorem isFirstFree_flag_iff (ha : takesValue a = true) :
    IsFirstFree p (a :: b :: rest) i s ↔
      (i = 0 ∧ s = a ∧ p a = true) ∨ ∃ j, i = j + 2 ∧ p a = false ∧ IsFirstFree p rest j s := by
  constructor
  · rintro ⟨here, free, holds, before⟩
    match i with
    | 0 =>
      obtain rfl : a = s := Option.some.inj here
      exact .inl ⟨rfl, rfl, holds⟩
    | 1 =>
      rw [isTaken_behind_flag ha] at free
      cases free
    | i + 2 =>
      refine .inr ⟨i, rfl, before 0 (by omega) a rfl rfl, here, ?_, holds, fun j hj c hc hfree => ?_⟩
      · rwa [isTaken_of_flag ha] at free
      · exact before (j + 2) (by omega) c hc (by rwa [isTaken_of_flag ha])
  · rintro (⟨rfl, rfl, holds⟩ | ⟨j, rfl, hfront, here, free, holds, before⟩)
    · exact ⟨rfl, rfl, holds, fun j hj => absurd hj (Nat.not_lt_zero j)⟩
    · refine ⟨here, by rwa [isTaken_of_flag ha], holds, fun i hi c hc hfree => ?_⟩
      match i with
      | 0 =>
        obtain rfl : a = c := Option.some.inj hc
        exact hfront
      | 1 =>
        rw [isTaken_behind_flag ha] at hfree
        cases hfree
      | i + 2 =>
        rw [isTaken_of_flag ha] at hfree
        exact before i (by omega) c hc hfree

theorem exists_isFirstFree_word_iff (ha : takesValue a = false) :
    (∃ i, IsFirstFree p (a :: rest) i s) ↔ (s = a ∧ p a = true) ∨ (p a = false ∧ ∃ i, IsFirstFree p rest i s) := by
  simp only [isFirstFree_word_iff ha]
  grind

theorem exists_isFirstFree_flag_iff (ha : takesValue a = true) :
    (∃ i, IsFirstFree p (a :: b :: rest) i s) ↔
      (s = a ∧ p a = true) ∨ (p a = false ∧ ∃ i, IsFirstFree p rest i s) := by
  simp only [isFirstFree_flag_iff ha]
  grind

theorem not_isFirstFree_nil : ¬ IsFirstFree p [] i s := fun h => by cases h.here

/-! ## The operand -/

theorem takesValue_of_mem_flags (h : a ∈ o.flags) : takesValue a = true :=
  List.any_eq_true.2 ⟨o, by cases o <;> decide, List.contains_iff_mem.2 h⟩

/-- Flags that have a value are no operands. -/
theorem isOperand_of_takesValue (h : takesValue a = true) : isOperand a = false := by
  obtain ⟨o, -, ha⟩ := List.any_eq_true.1 h
  have hflags : ∀ o : CommandOption, ∀ a ∈ o.flags, isOperand a = false := fun o => by cases o <;> decide
  exact hflags o a (List.contains_iff_mem.1 ha)

/-- The operand is the first free argument that can be one. -/
theorem operand?_eq_some_iff : operand? arguments = some s ↔ ∃ i, IsFirstFree isOperand arguments i s := by
  have hword (a : Chars) : operandText? (.word a) = if isOperand a then some a else none := rfl
  unfold operand?
  fun_induction readAll arguments with
  | case1 => simp [not_isFirstFree_nil]
  | case2 a =>
    -- the only argument: a flag whose value is missing, or a word
    rw [List.findSome?_singleton]
    split
    · rename_i ha
      constructor
      · intro h
        exact absurd h.symm (Option.some_ne_none s)
      · rintro ⟨i, hfirst⟩
        obtain rfl : a = s := List.mem_singleton.1 (List.mem_of_getElem? hfirst.here) ▸ rfl
        exact absurd hfirst.holds (by rw [isOperand_of_takesValue ha]; exact Bool.false_ne_true)
    · rename_i ha
      rw [exists_isFirstFree_word_iff (Bool.eq_false_iff.2 ha), hword]
      rw [Option.ite_none_right_eq_some, Option.some.injEq]
      constructor
      · rintro ⟨hoperand, heq⟩
        exact .inl ⟨heq.symm, hoperand⟩
      · rintro (⟨heq, hoperand⟩ | ⟨_, _, hnone⟩)
        · exact ⟨hoperand, heq.symm⟩
        · exact absurd hnone not_isFirstFree_nil
  | case3 a b rest ha ih =>
    rw [exists_isFirstFree_flag_iff ha, isOperand_of_takesValue ha, List.findSome?_cons_of_isNone rfl]
    simpa using ih
  | case4 a b rest ha ih =>
    rw [exists_isFirstFree_word_iff (Bool.eq_false_iff.2 ha), List.findSome?_cons, hword]
    by_cases hoperand : isOperand a = true
    · simp [hoperand, eq_comm]
    · simp [hoperand, ih]

/-! ## The value of an option -/

theorem value?_cons_of_flag (ha : o.flags.contains a = true) : value? o (a :: rest) = rest.head? := by
  rw [value?, List.dropWhile_cons_of_neg (by rw [ha]; exact Bool.false_ne_true)]
  cases rest <;> rfl

theorem value?_cons_of_other (ha : o.flags.contains a = false) : value? o (a :: rest) = value? o rest := by
  rw [value?, List.dropWhile_cons_of_pos (by rw [ha]; rfl), value?]

/-- The value of an option stands behind its first spelling. -/
theorem value?_of_isFirst (h : IsFirst o.flags.contains arguments i flag) :
    value? o arguments = arguments[i + 1]? := by
  induction arguments generalizing i with
  | nil => cases h.here
  | cons a rest ih =>
    cases i with
    | zero =>
      obtain rfl : a = flag := Option.some.inj h.here
      rw [value?_cons_of_flag h.holds, List.getElem?_cons_succ, List.head?_eq_getElem?]
    | succ i =>
      rw [value?_cons_of_other (h.before 0 (by omega) a rfl), List.getElem?_cons_succ]
      exact ih ⟨h.here, h.holds, fun j hj b hb => h.before (j + 1) (by omega) b hb⟩

/-- An option without a spelling has no value. -/
theorem value?_eq_none (h : ∀ a ∈ arguments, o.flags.contains a = false) : value? o arguments = none := by
  induction arguments with
  | nil => rfl
  | cons a rest ih =>
    rw [value?_cons_of_other (h a List.mem_cons_self)]
    exact ih fun b hb => h b (List.mem_cons_of_mem a hb)

/-- There is a first argument with a property if any has it. -/
theorem exists_isFirst (ha : a ∈ arguments) (hp : p a = true) : ∃ i b, IsFirst p arguments i b := by
  induction arguments with
  | nil => cases ha
  | cons c rest ih =>
    by_cases hc : p c = true
    · exact ⟨0, c, rfl, hc, fun j hj => absurd hj (Nat.not_lt_zero j)⟩
    · have hrest : a ∈ rest := (List.mem_cons.1 ha).resolve_left fun heq => hc (heq ▸ hp)
      obtain ⟨i, b, here, holds, before⟩ := ih hrest
      refine ⟨i + 1, b, here, holds, fun j hj d hd => ?_⟩
      cases j with
      | zero => exact Option.some.inj hd ▸ Bool.eq_false_iff.2 hc
      | succ j => exact before j (by omega) d hd

theorem value?_eq_some_iff :
    value? o arguments = some v ↔ ∃ i flag, IsFirst o.flags.contains arguments i flag ∧ arguments[i + 1]? = some v := by
  constructor
  · intro h
    by_cases hspelled : ∃ a ∈ arguments, o.flags.contains a = true
    · obtain ⟨a, ha, hflag⟩ := hspelled
      obtain ⟨i, flag, hfirst⟩ := exists_isFirst ha hflag
      exact ⟨i, flag, hfirst, by rw [← value?_of_isFirst hfirst, h]⟩
    · have hnone : ∀ a ∈ arguments, o.flags.contains a = false := fun a ha =>
        Bool.eq_false_iff.2 fun hflag => hspelled ⟨a, ha, hflag⟩
      rw [value?_eq_none hnone] at h
      cases h
  · rintro ⟨i, flag, hfirst, hv⟩
    rw [value?_of_isFirst hfirst, hv]

/-- Behind a flag that has a value an argument is taken exactly if the flag is free. -/
theorem isTaken_behind (hflag : arguments[i]? = some flag) (hvalue : takesValue flag = true) :
    isTaken arguments (i + 1) = !isTaken arguments i := by
  rw [isTaken, hflag, Option.any_some, hvalue, Bool.and_true]

/-- Behind a spelling that is taken, the answer is an argument that no flag takes. -/
theorem value?_of_taken (h : IsFirst o.flags.contains arguments i flag) (htaken : isTaken arguments i = true) :
    value? o arguments = arguments[i + 1]? ∧ isTaken arguments (i + 1) = false := by
  refine ⟨value?_of_isFirst h, ?_⟩
  rw [isTaken_behind h.here (takesValue_of_mem_flags (List.contains_iff_mem.1 h.holds)), htaken]
  rfl

theorem IsFirst.isFirstFree (h : IsFirst p arguments i a) (hfree : isTaken arguments i = false) :
    IsFirstFree p arguments i a :=
  ⟨h.here, hfree, h.holds, fun j hj b hb _ => h.before j hj b hb⟩

/-- Two first free arguments with one property are the same. -/
theorem IsFirstFree.unique {j : Nat} (h : IsFirstFree p arguments i a) (h' : IsFirstFree p arguments j b) : i = j := by
  rcases Nat.lt_trichotomy i j with hlt | heq | hgt
  · exact absurd h.holds (by rw [h'.before i hlt a h.here h.free]; exact Bool.false_ne_true)
  · exact heq
  · exact absurd h'.holds (by rw [h.before j hgt b h'.here h'.free]; exact Bool.false_ne_true)

/-- Behind the first spelling of an option, if that is free, stands what the reading takes for its value. -/
theorem value?_eq_some_iff_of_free
    (hfree : ∀ i flag, IsFirst o.flags.contains arguments i flag → isTaken arguments i = false) :
    value? o arguments = some v ↔
      ∃ i flag, IsFirstFree o.flags.contains arguments i flag ∧ arguments[i + 1]? = some v := by
  rw [value?_eq_some_iff]
  constructor
  · rintro ⟨i, flag, hfirst, hv⟩
    exact ⟨i, flag, hfirst.isFirstFree (hfree i flag hfirst), hv⟩
  · rintro ⟨i, flag, hfirst, hv⟩
    obtain ⟨j, flag', hfirst'⟩ := exists_isFirst (List.mem_of_getElem? hfirst.here) hfirst.holds
    obtain rfl := hfirst.unique (hfirst'.isFirstFree (hfree j flag' hfirst'))
    exact ⟨i, flag', hfirst', hv⟩

/-! ## The three answers -/

/-- The operand is always that of the one reading, and no flag takes it. The value of an option is that of the reading
if its first spelling is free; if a flag takes that spelling, the answer is the argument behind it, which is no value at
all. A switch is found among the free arguments exactly if it is not only among the values. -/
theorem reading_answers (arguments : List Chars) :
    (∀ s, operand? arguments = some s ↔ ∃ i, IsFirstFree isOperand arguments i s) ∧
    (∀ o : CommandOption,
      ((∀ i flag, IsFirst o.flags.contains arguments i flag → isTaken arguments i = false) →
        ∀ v, value? o arguments = some v ↔
          ∃ i flag, IsFirstFree o.flags.contains arguments i flag ∧ arguments[i + 1]? = some v ∧
            isTaken arguments (i + 1) = true) ∧
      ∀ i flag, IsFirst o.flags.contains arguments i flag → isTaken arguments i = true →
        value? o arguments = arguments[i + 1]? ∧ isTaken arguments (i + 1) = false) ∧
    ∀ switch,
      ((hasSwitch switch arguments = true ↔ ∃ i, arguments[i]? = some switch ∧ isTaken arguments i = false) ↔
        ¬ (switch ∈ arguments ∧ ∀ i, arguments[i]? = some switch → isTaken arguments i = true)) := by
  refine ⟨fun s => operand?_eq_some_iff, fun o => ⟨fun hfree v => ?_, fun i flag => value?_of_taken⟩, fun switch => ?_⟩
  · rw [value?_eq_some_iff_of_free hfree]
    refine exists_congr fun i => exists_congr fun flag => and_congr_right fun hfirst => ?_
    have htaken := isTaken_behind hfirst.here (takesValue_of_mem_flags (List.contains_iff_mem.1 hfirst.holds))
    rw [htaken, hfirst.free]
    simp
  · rw [hasSwitch, List.contains_iff_mem]
    have hmem : switch ∈ arguments ↔ ∃ i, arguments[i]? = some switch := List.mem_iff_getElem?
    grind

/-- A spelling that is free, and one that is the value of the flag in front of it. -/
theorem reading_answers_taken :
    (∀ i flag, IsFirst CommandOption.config.flags.contains
        ["-t".toList, "-o".toList, "x".toList, "-c".toList, "y".toList] i flag →
      isTaken ["-t".toList, "-o".toList, "x".toList, "-c".toList, "y".toList] i = false) ∧
    value? .config ["-t".toList, "-o".toList, "x".toList, "-c".toList, "y".toList] = some "y".toList ∧
    isTaken ["-t".toList, "-o".toList, "x".toList, "-c".toList, "y".toList] 1 = true ∧
    value? .output ["-t".toList, "-o".toList, "x".toList, "-c".toList, "y".toList] = some "x".toList ∧
    isTaken ["-t".toList, "-o".toList, "x".toList, "-c".toList, "y".toList] 2 = false := by
  obtain ⟨-, hvalue, -⟩ := reading_answers ["-t".toList, "-o".toList, "x".toList, "-c".toList, "y".toList]
  have hconfig : ∀ i flag, IsFirst CommandOption.config.flags.contains
      ["-t".toList, "-o".toList, "x".toList, "-c".toList, "y".toList] i flag →
      isTaken ["-t".toList, "-o".toList, "x".toList, "-c".toList, "y".toList] i = false := by
    rintro i flag ⟨here, holds, -⟩
    match i with
    | 0 | 1 | 2 | 4 => cases here; revert holds; decide
    | 3 => decide
  have hfree : IsFirstFree CommandOption.config.flags.contains
      ["-t".toList, "-o".toList, "x".toList, "-c".toList, "y".toList] 3 "-c".toList := by
    refine ⟨rfl, by decide, by decide, fun j hj b hb _ => ?_⟩
    match j with
    | 0 | 1 | 2 => cases hb; decide
  have htaken : IsFirst CommandOption.output.flags.contains
      ["-t".toList, "-o".toList, "x".toList, "-c".toList, "y".toList] 1 "-o".toList := by
    refine ⟨rfl, by decide, fun j hj b hb => ?_⟩
    match j with
    | 0 => cases hb; decide
  have houtput := (hvalue .output).2 1 _ htaken (by decide)
  exact ⟨hconfig, ((hvalue .config).1 hconfig _).2 ⟨3, _, hfree, rfl, by decide⟩, by decide, houtput⟩

end ViewBridge.Argument
