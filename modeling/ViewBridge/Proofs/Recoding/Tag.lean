import ViewBridge.Proofs.Recoding.Expression
import ViewBridge.Proofs.Shelf
import ViewBridge.Translator.Emit
/-!
# Recoded tags

What a tag becomes commutes with a recoding that leaves braces alone: the readers inside a tag look at
braces only to count brackets, and all other text that is written for a tag is spoken.

Results:
* `readAssignment_text`, `readCounting_text`, `readFunctionBody_text`: the readers inside tags.
* `emitVariable_text`, `emitFunction_text`, `emitLoop_text`, …: what is written.
-/
namespace ViewBridge.Recoding

variable (r : Recoding)

/-! ## Assignments -/

open Directive

theorem isTargetChar_of_isMute {c : Char} (h : isMute c = true) : isTargetChar c = false := by
  have hname := (isMute_eq_true_iff.1 h).2.1
  have hdot := ne_of_isMute h (d := '.') (isMute_of_isTagChar rfl)
  simp only [Text.isNameChar, Text.isNameStart, Bool.or_eq_false_iff, beq_eq_false_iff_ne] at hname
  simp [isTargetChar, hname, hdot]

theorem isJoining_of_isMute {c : Char} (h : isMute c = true) : isJoining c = false := by
  have hne (d : Char) (hd : isMute d = false) : (c == d) = false := beq_eq_false_iff_ne.2 (ne_of_isMute h hd)
  simp [isJoining, hne '-' (by decide), hne '+' (by decide), hne '*' (by decide), hne '/' (by decide),
    hne '.' (by decide)]

theorem readCompound_eq (e : Chars) :
    readCompound e =
      ((next? isJoining ((e.dropWhile isTargetChar).dropWhile Text.isBlank)).bind fun (op, s) =>
        (Text.after? ['='] s).bind fun value =>
          if e.takeWhile isTargetChar ≠ [] then
            some ⟨e.takeWhile isTargetChar, some op, value.dropWhile Text.isBlank⟩
          else none).or
      ((Text.after? ['='] (e.dropWhile isTargetChar)).bind fun value =>
        if (e.takeWhile isTargetChar).getLast? = some '.' ∧ (e.takeWhile isTargetChar).dropLast ≠ [] then
          some ⟨(e.takeWhile isTargetChar).dropLast, some '.', value.dropWhile Text.isBlank⟩
        else none) := by
  unfold readCompound
  simp only
  congr 1
  · rcases (e.dropWhile isTargetChar).dropWhile Text.isBlank with _ | ⟨op, _ | ⟨c, cs⟩⟩
    · rfl
    · by_cases hop : isJoining op <;> simp [next?, Text.after?, hop]
    · by_cases hop : isJoining op <;> by_cases hc : c = '=' <;> simp [next?, Text.after?, hop, hc, Ne.symm]
  · rcases e.dropWhile isTargetChar with _ | ⟨c, cs⟩
    · rfl
    · by_cases hc : c = '=' <;> simp [Text.after?, hc, Ne.symm]

theorem readSimple_eq (e : Chars) :
    readSimple e =
      if e.takeWhile isTargetChar = [] then none
      else (Text.after? ['='] ((e.dropWhile isTargetChar).dropWhile Text.isBlank)).bind fun value =>
        if (value.dropWhile Text.isBlank).head? = some '=' then none
        else some ⟨e.takeWhile isTargetChar, none, value.dropWhile Text.isBlank⟩ := by
  unfold readSimple
  simp only
  split
  · rfl
  · rcases (e.dropWhile isTargetChar).dropWhile Text.isBlank with _ | ⟨c, cs⟩
    · rfl
    · by_cases hc : c = '=' <;> simp [Text.after?, hc, Ne.symm]

/-- The assignment with its value recoded. -/
def assignment (a : Assignment) : Assignment := { a with value := r.text a.value }

theorem readAssignment_text (e : Chars) : readAssignment (r.text e) = (readAssignment e).map r.assignment := by
  have htarget := r.dropWhile_text (fun c => isTargetChar_of_isMute (c := c)) e
  have hname := r.takeWhile_text (fun c => isTargetChar_of_isMute (c := c)) e
  have hblank (s : Chars) : (r.text s).dropWhile Text.isBlank = r.text (s.dropWhile Text.isBlank) :=
    r.dropWhile_text (fun _ => isBlank_of_isMute) s
  have hequals := r.after?_text ['='] (by decide)
  have hcompound : readCompound (r.text e) = (readCompound e).map r.assignment := by
    rw [readCompound_eq, readCompound_eq, htarget, hname, hblank, r.next?_text fun _ => isJoining_of_isMute,
      hequals, Option.map_or]
    congr 1
    · cases next? isJoining ((e.dropWhile isTargetChar).dropWhile Text.isBlank) with
      | none => rfl
      | some p =>
        simp only [Option.map_some, Option.bind_some, hequals]
        cases Text.after? ['='] p.2 with
        | none => rfl
        | some value =>
          simp only [Option.map_some, Option.bind_some, hblank]
          split <;> rfl
    · cases Text.after? ['='] (e.dropWhile isTargetChar) with
      | none => rfl
      | some value =>
        simp only [Option.map_some, Option.bind_some, hblank]
        split <;> rfl
  have hsimple : readSimple (r.text e) = (readSimple e).map r.assignment := by
    rw [readSimple_eq, readSimple_eq, htarget, hname, hblank, hequals]
    split
    · rfl
    · cases Text.after? ['='] ((e.dropWhile isTargetChar).dropWhile Text.isBlank) with
      | none => rfl
      | some value =>
        simp only [Option.map_some, Option.bind_some, hblank, r.head?_text_eq_some_iff (c := '=') (by decide)]
        split <;> rfl
  rw [readAssignment, hcompound, hsimple, readAssignment]
  cases readCompound e <;> rfl

/-- The name and the operator of an assignment are spoken. -/
theorem isSpoken_of_readAssignment {e : Chars} {a : Assignment} (h : readAssignment e = some a) :
    IsSpoken a.name ∧ ∀ op ∈ a.operator, isMute op = false := by
  have hname : IsSpoken (e.takeWhile isTargetChar) := isSpoken_takeWhile (fun _ => isTargetChar_of_isMute) e
  rcases Option.or_eq_some_iff.1 h with h | ⟨-, h⟩
  · rw [readCompound_eq] at h
    rcases Option.or_eq_some_iff.1 h with h | ⟨-, h⟩
    · obtain ⟨p, hp, h⟩ := Option.bind_eq_some_iff.1 h
      obtain ⟨value, -, h⟩ := Option.bind_eq_some_iff.1 h
      obtain ⟨-, ⟨⟩⟩ := Option.ite_none_right_eq_some.1 h
      refine ⟨hname, ?_⟩
      rintro op ⟨⟩
      cases hm : isMute p.1 with
      | false => rfl
      | true => rw [← (next?_eq_some (show _ = some (p.1, p.2) from hp)).1, isJoining_of_isMute hm]
    · obtain ⟨value, -, h⟩ := Option.bind_eq_some_iff.1 h
      obtain ⟨-, ⟨⟩⟩ := Option.ite_none_right_eq_some.1 h
      refine ⟨fun c hc => hname c (List.dropLast_sublist _ |>.mem hc), ?_⟩
      rintro op ⟨⟩
      decide
  · rw [readSimple_eq] at h
    obtain ⟨-, h⟩ := Option.ite_none_left_eq_some.1 h
    obtain ⟨value, -, h⟩ := Option.bind_eq_some_iff.1 h
    obtain ⟨-, ⟨⟩⟩ := Option.ite_none_left_eq_some.1 h
    exact ⟨hname, by rintro _ ⟨⟩⟩

/-! ## Counting loops -/

/-- The counting loop with its bound recoded. -/
def countingLoop (c : CountingLoop) : CountingLoop := { c with last := r.text c.last }

theorem isWordChar_of_isMute {c : Char} (h : isMute c = true) : Text.isWordChar c = false :=
  (isMute_eq_true_iff.1 h).2.2.2.1

theorem isAnyDigit_of_isMute {c : Char} (h : isMute c = true) : Text.isAnyDigit c = false :=
  (isMute_eq_true_iff.1 h).2.2.2.2

theorem sees_readCounter : r.Sees readCounter := by
  intro s
  simp only [readCounter, Option.bind_eq_bind, r.after?_text "$".toList (by decide)]
  cases Text.after? "$".toList s with
  | none => rfl
  | some s =>
    simp only [Option.map_some, Option.bind_some, r.takeWhile_text fun _ => isWordChar_of_isMute,
      r.dropWhile_text fun _ => isWordChar_of_isMute, r.dropWhile_text fun _ => isBlank_of_isMute]
    split <;> rfl

theorem readBound_text (s : Chars) : readBound (r.text s) = (readBound s).map r.text := by
  unfold readBound
  rw [r.dropWhile_text fun _ => isBlank_of_isMute]
  cases hd : s.dropWhile Text.isBlank with
  | nil =>
    have hspoken : IsSpoken s := by
      intro c hc
      cases hm : isMute c with
      | false => rfl
      | true =>
        have := List.dropWhile_eq_nil_iff.1 hd c hc
        rw [isBlank_of_isMute hm] at this
        cases this
    rw [text_nil, r.text_of_isSpoken hspoken]
    cases hl : s.getLast? with
    | none => rfl
    | some c => simp [r.image_of_spoken (hspoken c (List.mem_of_getLast? hl)), text]
  | cons c cs =>
    obtain ⟨d, ds, ht⟩ := List.exists_cons_of_ne_nil (mt (r.text_eq_nil_iff (c :: cs)).1 (by simp))
    rw [ht]
    simp only [Option.map_some, ← ht, r.dropEndWhile_text fun _ => isBlank_of_isMute]

theorem readComparison_text (s : Chars) :
    readComparison (r.text s) = (readComparison s).map fun (inclusive, bound) => (inclusive, r.text bound) := by
  unfold readComparison
  rw [r.after?_text _ (by decide)]
  cases Text.after? "<=".toList s with
  | some after =>
    simp only [Option.map_some, readBound_text]
    cases readBound after with
    | none =>
      simp only [Option.map_none, Option.map_some]
      rw [r.text_of_isSpoken (by decide)]
    | some bound => rfl
  | none =>
    simp only [Option.map_none, Option.bind_eq_bind, r.after?_text "<".toList (by decide)]
    cases Text.after? "<".toList s with
    | none => rfl
    | some after =>
      simp only [Option.map_some, Option.bind_some, readBound_text]
      cases readBound after <;> rfl

/-- The start of a counting header, up to the middle part: the variable and its first value. -/
def countingStart (s : Chars) : Option ((Chars × Chars) × Chars) :=
  (readCounter s).bind fun (var, s) => (Text.after? "=".toList s).bind fun s =>
    let first := (s.dropWhile Text.isBlank).takeWhile Text.isAnyDigit
    if first = [] then none
    else
      let s := ((s.dropWhile Text.isBlank).dropWhile Text.isAnyDigit).dropWhile Text.isBlank
      (Text.after? ";".toList s).map fun s => ((var, first), s.dropWhile Text.isBlank)

/-- The other two parts of a counting header. -/
def countingEnd (var first s : Chars) : Option CountingLoop :=
  (readCounter s).bind fun (compared, s) =>
    (readComparison (s.takeWhile (· != ';'))).bind fun (inclusive, last) =>
      (Text.after? ";".toList (s.dropWhile (· != ';'))).bind fun s =>
        (Text.after? "$".toList (s.dropWhile Text.isBlank)).bind fun s =>
          let stepped := s.takeWhile Text.isWordChar
          if s.dropWhile Text.isWordChar = "++".toList ∧ var = compared ∧ var = stepped then
            some ⟨var, first, last, inclusive⟩
          else none

theorem readCounting_eq (s : Chars) :
    readCounting s = (countingStart s).bind fun ((var, first), s) => countingEnd var first s := by
  simp only [readCounting, countingStart, Option.bind_eq_bind, Option.bind_assoc]
  congr 1
  funext p
  congr 1
  funext s
  split
  · rfl
  · rw [Option.bind_map]
    rfl

theorem sees_countingStart : r.Sees countingStart := by
  have hblank (s : Chars) : (r.text s).dropWhile Text.isBlank = r.text (s.dropWhile Text.isBlank) :=
    r.dropWhile_text (fun _ => isBlank_of_isMute) s
  intro s
  simp only [countingStart, r.sees_readCounter s]
  cases readCounter s with
  | none => rfl
  | some p =>
    simp only [Option.map_some, Option.bind_some, r.after?_text "=".toList (by decide)]
    cases Text.after? "=".toList p.2 with
    | none => rfl
    | some s =>
      simp only [Option.map_some, Option.bind_some, hblank, r.takeWhile_text fun _ => isAnyDigit_of_isMute,
        r.dropWhile_text fun _ => isAnyDigit_of_isMute, r.after?_text ";".toList (by decide)]
      split
      · rfl
      · simp only [Option.map_map, Function.comp_def, hblank]

theorem countingEnd_text (var first s : Chars) :
    countingEnd var first (r.text s) = (countingEnd var first s).map r.countingLoop := by
  have hblank (s : Chars) : (r.text s).dropWhile Text.isBlank = r.text (s.dropWhile Text.isBlank) :=
    r.dropWhile_text (fun _ => isBlank_of_isMute) s
  have hpart (s : Chars) := r.span_text (p := (· != ';')) (b := true)
    (fun c hc => bne_iff_ne.2 (ne_of_isMute hc (by decide))) s
  simp only [countingEnd, r.sees_readCounter s]
  cases readCounter s with
  | none => rfl
  | some p =>
    simp only [Option.map_some, Option.bind_some, hpart, readComparison_text,
      r.after?_text ";".toList (by decide)]
    cases readComparison (p.2.takeWhile (· != ';')) with
    | none => rfl
    | some q =>
      simp only [Option.map_some, Option.bind_some]
      cases Text.after? ";".toList (p.2.dropWhile (· != ';')) with
      | none => rfl
      | some s =>
        simp only [Option.map_some, Option.bind_some, hblank, r.after?_text "$".toList (by decide)]
        cases Text.after? "$".toList (s.dropWhile Text.isBlank) with
        | none => rfl
        | some s =>
          have hplus : r.text (s.dropWhile Text.isWordChar) = "++".toList ↔
              s.dropWhile Text.isWordChar = "++".toList := r.text_eq_iff (by decide) _
          simp only [Option.map_some, Option.bind_some, r.takeWhile_text fun _ => isWordChar_of_isMute,
            r.dropWhile_text fun _ => isWordChar_of_isMute, hplus]
          split <;> rfl

theorem readCounting_text (s : Chars) : readCounting (r.text s) = (readCounting s).map r.countingLoop := by
  rw [readCounting_eq, readCounting_eq, r.sees_countingStart s]
  cases countingStart s with
  | none => rfl
  | some p => exact r.countingEnd_text _ _ _

/-- The variable and the first value of a counting loop are spoken. -/
theorem isSpoken_of_readCounting {s : Chars} {c : CountingLoop} (h : readCounting s = some c) :
    IsSpoken c.var ∧ IsSpoken c.first := by
  rw [readCounting_eq] at h
  obtain ⟨⟨⟨var, first⟩, rest⟩, hstart, h⟩ := Option.bind_eq_some_iff.1 h
  have hc : c.var = var ∧ c.first = first := by
    obtain ⟨p, -, h⟩ := Option.bind_eq_some_iff.1 h
    obtain ⟨q, -, h⟩ := Option.bind_eq_some_iff.1 h
    obtain ⟨s₁, -, h⟩ := Option.bind_eq_some_iff.1 h
    obtain ⟨s₂, -, h⟩ := Option.bind_eq_some_iff.1 h
    obtain ⟨-, ⟨⟩⟩ := Option.ite_none_right_eq_some.1 h
    exact ⟨rfl, rfl⟩
  obtain ⟨⟨v, s₁⟩, hcounter, hstart⟩ := Option.bind_eq_some_iff.1 hstart
  obtain ⟨s₂, -, hstart⟩ := Option.bind_eq_some_iff.1 hstart
  obtain ⟨-, hstart⟩ := Option.ite_none_left_eq_some.1 hstart
  obtain ⟨s₃, -, hstart⟩ := Option.map_eq_some_iff.1 hstart
  simp only [Prod.mk.injEq] at hstart
  obtain ⟨s₀, -, hcounter⟩ := Option.bind_eq_some_iff.1 hcounter
  obtain ⟨-, hcounter⟩ := Option.ite_none_left_eq_some.1 hcounter
  rw [Option.some.injEq, Prod.mk.injEq] at hcounter
  rw [hc.1, hc.2, ← hstart.1.1, ← hstart.1.2, ← hcounter.1]
  exact ⟨isSpoken_takeWhile (fun _ => isWordChar_of_isMute) _, isSpoken_takeWhile (fun _ => isAnyDigit_of_isMute) _⟩

/-! ## Function bodies -/

/-- The body with its arguments recoded. -/
def functionBody : FunctionBody → FunctionBody
  | .method object chain args => .method object chain (r.text args)
  | .call name args => .call name (args.map r.text)
  | .other => .other

theorem closesAtEnd_append_of_isMute {w : Chars} (hw : ∀ c ∈ w, isMute c = true) {st : ArgumentState}
    (hst : ∀ q, st.quote = some q → isMute q = false) (s : Chars) :
    closesAtEnd st (w ++ s) = closesAtEnd st s := by
  induction w with
  | nil => rfl
  | cons c cs ih =>
    have hc := hw c List.mem_cons_self
    have ih := ih fun d hd => hw d (List.mem_cons_of_mem c hd)
    rw [List.cons_append, closesAtEnd]
    cases hq : st.quote with
    | some q => simp only [if_neg (ne_of_isMute hc (hst q hq)), ih]
    | none =>
      simp only [isQuote_of_isMute hc, Bool.false_eq_true, if_false,
        if_neg (ne_of_isMute hc (isMute_of_isTagChar (c := '(') rfl)),
        if_neg (ne_of_isMute hc (isMute_of_isTagChar (c := ')') rfl)), ih]

theorem closesAtEnd_text (st : ArgumentState) (hst : ∀ q, st.quote = some q → isMute q = false) (s : Chars) :
    closesAtEnd st (r.text s) = closesAtEnd st s := by
  induction s generalizing st with
  | nil => rfl
  | cons c cs ih =>
    cases hc : isMute c with
    | true =>
      have hskip := closesAtEnd_append_of_isMute (w := [c]) (by simpa using hc) hst cs
      rw [text_cons, closesAtEnd_append_of_isMute (fun d hd => r.isMute_of_mem_image hc hd) hst, ih _ hst]
      exact hskip.symm
    | false =>
      rw [r.text_cons_of_spoken hc, closesAtEnd, closesAtEnd]
      cases hq : st.quote with
      | some q =>
        simp only
        split
        · exact ih _ (by simp)
        · exact ih _ hst
      | none =>
        simp only
        split
        · exact ih _ (by simpa using hc)
        · split
          · exact ih _ (by simp)
          · split
            · rw [ih _ (by simp)]
            · exact ih _ hst

/-- The two braces. -/
def isBrace (c : Char) : Bool := c == '\x7b' || c == '\x7d'

/-- A recoding that writes no brace and recodes none. -/
structure Framed : Prop where
  brace : ∀ c, isBrace c = true → r.image c = [c]
  other : ∀ c, isBrace c = false → ∀ d ∈ r.image c, isBrace d = false

variable {r}

theorem hasTopComma_append_of_isMute {w : Chars} (hw : ∀ c ∈ w, isMute c = true ∧ isBrace c = false)
    {st : ArgumentState} (hst : ∀ q, st.quote = some q → isMute q = false) (s : Chars) :
    hasTopComma st (w ++ s) = hasTopComma st s := by
  induction w with
  | nil => rfl
  | cons c cs ih =>
    obtain ⟨hc, hbrace⟩ := hw c List.mem_cons_self
    have ih := ih fun d hd => hw d (List.mem_cons_of_mem c hd)
    have hne (d : Char) (hd : isMute d = false) : c ≠ d := ne_of_isMute hc hd
    simp only [isBrace, Bool.or_eq_false_iff, beq_eq_false_iff_ne] at hbrace
    rw [List.cons_append, hasTopComma]
    cases hq : st.quote with
    | some q => simp only [if_neg (ne_of_isMute hc (hst q hq)), ih]
    | none =>
      simp [isQuote_of_isMute hc, hne '(' (by decide), hne '[' (by decide), hne ')' (by decide),
        hne ']' (by decide), hne ',' (by decide), hbrace, ih]

theorem hasTopComma_text (hr : r.Framed) {st : ArgumentState} (hst : ∀ q, st.quote = some q → isMute q = false)
    (s : Chars) : hasTopComma st (r.text s) = hasTopComma st s := by
  induction s generalizing st with
  | nil => rfl
  | cons c cs ih =>
    have hcopy (himage : r.image c = [c]) : hasTopComma st (r.text (c :: cs)) = hasTopComma st (c :: cs) := by
      rw [text_cons, himage, List.singleton_append, hasTopComma, hasTopComma]
      cases hq : st.quote with
      | some q =>
        simp only
        split
        · exact ih (by simp)
        · exact ih hst
      | none =>
        simp only
        split
        · rename_i hquote
          exact ih (by simpa using isMute_of_isQuote hquote)
        · split
          · exact ih (by simp)
          · split
            · exact ih (by simp)
            · split
              · rfl
              · exact ih hst
    by_cases hc : isMute c = true ∧ isBrace c = false
    · have hskip := hasTopComma_append_of_isMute (w := [c]) (by simpa using hc) hst cs
      rw [text_cons, hasTopComma_append_of_isMute
        (fun d hd => ⟨r.isMute_of_mem_image hc.1 hd, hr.other c hc.2 d hd⟩) hst, ih hst]
      exact hskip.symm
    · cases hbrace : isBrace c with
      | true => exact hcopy (hr.brace c hbrace)
      | false => exact hcopy (r.image_of_spoken (by simpa [hbrace] using hc))

variable (r)

theorem before?_text {tail : Chars} (htail : IsSpoken tail) (s : Chars) :
    Text.before? tail (r.text s) = (Text.before? tail s).map r.text := by
  have hback : IsSpoken tail.reverse := fun c hc => htail c (List.mem_reverse.1 hc)
  rw [Text.before?, reverse_text, r.reverse.after?_text _ hback, Text.before?, Option.map_map, Option.map_map]
  congr 1
  funext t
  exact r.reverse_reverse_text t

theorem readArguments_text (s : Chars) : readArguments (r.text s) = (readArguments s).map r.text := by
  rw [readArguments, r.after?_text _ (by decide), readArguments]
  cases Text.after? "(".toList s with
  | none => rfl
  | some s => exact r.before?_text (by decide) s

/-- The fuel of a chain does not matter if there is enough of it. -/
theorem readChain_fuel {n m : Nat} {s : Chars} (hn : s.length ≤ n) (hm : s.length ≤ m) :
    readChain n s = readChain m s := by
  induction n generalizing m s with
  | zero =>
    obtain rfl : s = [] := List.length_eq_zero_iff.1 (by omega)
    cases m <;> rfl
  | succ n ih =>
    cases m with
    | zero =>
      obtain rfl : s = [] := List.length_eq_zero_iff.1 (by omega)
      rfl
    | succ m =>
      simp only [readChain]
      split
      · rename_i c rest ha
        have hlen := congrArg List.length (Text.after?_eq_some_iff.1 ha)
        have hdrop := (List.dropWhile_sublist Text.isNameChar (l := rest)).length_le
        simp only [List.length_append, List.length_cons] at hlen
        rw [ih (m := m) (by omega) (by omega)]
      · rfl

theorem readChain_succ (fuel : Nat) (s : Chars) :
    readChain (fuel + 1) s =
      match (Text.after? "->".toList s).bind (next? Text.isNameStart) with
      | some (c, rest) =>
        ((c :: rest.takeWhile Text.isNameChar) :: (readChain fuel (rest.dropWhile Text.isNameChar)).1,
          (readChain fuel (rest.dropWhile Text.isNameChar)).2)
      | none => ([], s) := by
  rw [readChain]
  rcases Text.after? "->".toList s with _ | _ | ⟨c, rest⟩
  · rfl
  · rfl
  · by_cases hc : Text.isNameStart c <;> simp [next?, hc]

theorem isNameChar_of_isMute {c : Char} (h : isMute c = true) : Text.isNameChar c = false :=
  (isMute_eq_true_iff.1 h).2.1

theorem readChain_text (fuel : Nat) (s : Chars) :
    readChain fuel (r.text s) = ((readChain fuel s).1, r.text (readChain fuel s).2) := by
  induction fuel generalizing s with
  | zero => rfl
  | succ fuel ih =>
    have hread : (Text.after? "->".toList (r.text s)).bind (next? Text.isNameStart) =
        ((Text.after? "->".toList s).bind (next? Text.isNameStart)).map fun (c, rest) => (c, r.text rest) :=
      (r.sees_next fun _ => isNameStart_of_isMute).lead (by decide) s
    rw [readChain_succ, readChain_succ, hread]
    cases (Text.after? "->".toList s).bind (next? Text.isNameStart) with
    | none => rfl
    | some p =>
      simp only [Option.map_some, r.takeWhile_text fun _ => isNameChar_of_isMute,
        r.dropWhile_text fun _ => isNameChar_of_isMute, ih]

theorem readMethodCall_text (s : Chars) : readMethodCall (r.text s) = (readMethodCall s).map r.functionBody := by
  simp only [readMethodCall, Option.bind_eq_bind, r.after?_text "$".toList (by decide)]
  cases Text.after? "$".toList s with
  | none => rfl
  | some s =>
    have hdrop := (List.dropWhile_sublist Text.isNameChar (l := s)).length_le
    have hfuel : readChain (r.text s).length (s.dropWhile Text.isNameChar) =
        readChain s.length (s.dropWhile Text.isNameChar) :=
      readChain_fuel (hdrop.trans (r.length_le_text s)) hdrop
    simp only [Option.map_some, Option.bind_some, r.takeWhile_text fun _ => isNameChar_of_isMute,
      r.dropWhile_text fun _ => isNameChar_of_isMute, r.dropWhile_text fun _ => isBlank_of_isMute,
      readChain_text, hfuel, readArguments_text]
    split
    · rfl
    · split
      · rfl
      · cases readArguments ((readChain s.length (s.dropWhile Text.isNameChar)).2.dropWhile Text.isBlank) with
        | none => rfl
        | some args =>
          simp only [Option.map_some, Option.bind_some, r.closesAtEnd_text {} (by simp)]
          split <;> rfl

theorem isCallChar_of_isMute {c : Char} (h : isMute c = true) : isCallChar c = false := by
  have hcolon := ne_of_isMute h (d := ':') (isMute_of_isTagChar rfl)
  simp [isCallChar, isNameChar_of_isMute h, hcolon]

theorem readPlainCall_text (s : Chars) : readPlainCall (r.text s) = (readPlainCall s).map r.functionBody := by
  unfold readPlainCall
  simp only [r.takeWhile_text fun _ => isCallChar_of_isMute, r.dropWhile_text fun _ => isCallChar_of_isMute,
    r.dropWhile_text fun _ => isBlank_of_isMute]
  split
  · rfl
  · cases (s.dropWhile isCallChar).dropWhile Text.isBlank with
    | nil => rfl
    | cons c cs =>
      obtain ⟨d, ds, ht⟩ := List.exists_cons_of_ne_nil (mt (r.text_eq_nil_iff (c :: cs)).1 (by simp))
      have hargs := r.readArguments_text (c :: cs)
      rw [ht] at hargs
      simp only [ht, hargs]
      cases readArguments (c :: cs) with
      | none => rfl
      | some args =>
        simp only [Option.map_some, Option.bind_some, r.closesAtEnd_text {} (by simp)]
        split <;> rfl

theorem readFunctionBody_text (s : Chars) : readFunctionBody (r.text s) = r.functionBody (readFunctionBody s) := by
  rw [readFunctionBody, readMethodCall_text, readPlainCall_text, readFunctionBody]
  cases readMethodCall s with
  | some body => rfl
  | none => cases readPlainCall s <;> rfl

/-- The names of a call are spoken. -/
def SpokenNames : FunctionBody → Prop
  | .method object chain _ => IsSpoken object ∧ ∀ name ∈ chain, IsSpoken name
  | .call name _ => IsSpoken name
  | .other => True

theorem isSpoken_of_mem_readChain {fuel : Nat} {s name : Chars} (h : name ∈ (readChain fuel s).1) :
    IsSpoken name := by
  induction fuel generalizing s with
  | zero => cases h
  | succ fuel ih =>
    rw [readChain_succ] at h
    split at h
    · rename_i c rest hread
      obtain ⟨s', -, hread⟩ := Option.bind_eq_some_iff.1 hread
      have hc := isMute_of_isNameChar (Text.isNameChar_of_isNameStart (next?_eq_some hread).1)
      rcases List.mem_cons.1 h with rfl | h
      · exact .cons hc (isSpoken_takeWhile (fun _ => isNameChar_of_isMute) rest)
      · exact ih h
    · cases h

theorem spokenNames_readFunctionBody (s : Chars) : SpokenNames (readFunctionBody s) := by
  unfold readFunctionBody
  cases hbody : (readMethodCall s).or (readPlainCall s) with
  | none => trivial
  | some body =>
    rcases Option.or_eq_some_iff.1 hbody with h | ⟨-, h⟩
    · simp only [readMethodCall, Option.bind_eq_bind] at h
      obtain ⟨s₁, -, h⟩ := Option.bind_eq_some_iff.1 h
      obtain ⟨-, h⟩ := Option.ite_none_left_eq_some.1 h
      obtain ⟨-, h⟩ := Option.ite_none_left_eq_some.1 h
      obtain ⟨args, -, h⟩ := Option.bind_eq_some_iff.1 h
      obtain ⟨-, ⟨⟩⟩ := Option.ite_none_right_eq_some.1 h
      exact ⟨isSpoken_takeWhile (fun _ => isNameChar_of_isMute) _, fun name => isSpoken_of_mem_readChain⟩
    · have hname : IsSpoken (s.takeWhile isCallChar) := isSpoken_takeWhile (fun _ => isCallChar_of_isMute) s
      unfold readPlainCall at h
      obtain ⟨-, h⟩ := Option.ite_none_left_eq_some.1 h
      split at h
      · cases h
        exact hname
      · obtain ⟨args, -, h⟩ := Option.bind_eq_some_iff.1 h
        obtain ⟨-, ⟨⟩⟩ := Option.ite_none_right_eq_some.1 h
        exact hname

/-! ## What is written -/

variable {r}

/-- The characters of tags and their braces stay. -/
theorem Framed.text_eq (hr : r.Framed) {s : Chars} (hs : (s.all fun c => isTagChar c || isBrace c) = true) :
    r.text s = s := by
  induction s with
  | nil => rfl
  | cons c cs ih =>
    rw [List.all_cons, Bool.and_eq_true, Bool.or_eq_true] at hs
    have himage : r.image c = [c] := hs.1.elim (fun h => r.image_of_spoken (isMute_of_isTagChar h)) (hr.brace c)
    rw [text_cons, himage, ih hs.2]
    rfl

theorem isSpoken_of_filterOf? {d : Dialect} {helper filter : Chars} (h : d.filterOf? helper = some filter) :
    IsSpoken filter := by
  have every : ∀ s ∈ Dialect.filters.map String.toList, s.all isTagChar = true := by decide
  exact isSpoken_of_tagChars (every filter (Dialect.filterOf?_mem h))

theorem operand_text (r : Recoding) (e : Chars) : operand (r.text e) = r.text (operand e) := by
  have hany : ∀ c, isMute c = true → (Text.isBlank c || c == '|') = false := by
    intro c hc
    rw [isBlank_of_isMute hc, Bool.false_or, beq_eq_false_iff_ne]
    exact ne_of_isMute hc (isMute_of_isTagChar rfl)
  rw [operand, r.any_text hany, operand]
  split
  · rw [text_append, r.text_cons_of_spoken (c := '(') (isMute_of_isTagChar rfl),
      r.text_of_isSpoken (s := [')']) (isSpoken_of_tagChars rfl)]
  · rfl

namespace Framed

variable (hr : r.Framed) (d : Dialect)
include hr

theorem tag (s : Chars) : r.text (Dialect.tag s) = Dialect.tag (r.text s) := by
  simp (disch := decide) only [Dialect.tag, text_append, hr.text_eq]

theorem output (s : Chars) : r.text (Dialect.output s) = Dialect.output (r.text s) := by
  simp (disch := decide) only [Dialect.output, text_append, hr.text_eq]

theorem rawOutput (e : Chars) : r.text (d.rawOutput e) = d.rawOutput (r.text e) := by
  rw [Dialect.rawOutput, hr.output, text_append, r.text_cons_of_spoken (isMute_of_isTagChar rfl)]
  cases d <;> simp (disch := decide) only [Dialect.rawFilter, hr.text_eq] <;> rfl

theorem includeLiteral (file : Chars) : r.text (d.includeLiteral file) = d.includeLiteral (r.text file) := by
  cases d <;> simp (disch := decide) only [Dialect.includeLiteral, hr.tag, hr.output, text_append, hr.text_eq]

theorem includeDynamic (e : Chars) : r.text (d.includeDynamic e) = d.includeDynamic (r.text e) := by
  cases d <;> simp (disch := decide) only [Dialect.includeDynamic, hr.tag, hr.output, text_append, hr.text_eq]

theorem forPair (key value e : Chars) :
    r.text (d.forPair key value e) = d.forPair (r.text key) (r.text value) (r.text e) := by
  cases d <;>
    simp (disch := decide) only [Dialect.forPair, hr.tag, text_append, hr.text_eq, operand_text]

theorem forSingle (value e : Chars) :
    r.text (d.forSingle value e) = d.forSingle (r.text value) (r.text e) := by
  cases d <;>
    simp (disch := decide) only [Dialect.forSingle, hr.tag, text_append, hr.text_eq, operand_text]

theorem forRange (var first last : Chars) (inclusive : Bool) :
    r.text (d.forRange var first last inclusive) =
      d.forRange (r.text var) (r.text first) (r.text last) inclusive := by
  cases d <;> cases inclusive <;>
    simp (disch := decide) only [Dialect.forRange, Dialect.upperBound, hr.tag, text_append, hr.text_eq,
      operand_text]

theorem filterForm? (helper arg : Chars) :
    (d.filterForm? helper arg).map r.text = d.filterForm? helper (r.text arg) := by
  rw [Dialect.filterForm?, Dialect.filterForm?]
  cases hf : d.filterOf? helper with
  | none => rfl
  | some filter =>
    simp only [Option.map_some, hr.output, text_append, operand_text,
      r.text_cons_of_spoken (isMute_of_isTagChar (c := '|') rfl), r.text_of_isSpoken (isSpoken_of_filterOf? hf)]

end Framed

/-! ## Tags -/

theorem bindingName_text (r : Recoding) (s : Chars) : bindingName (r.text s) = r.text (bindingName s) := by
  have hsigil : ∀ c, isMute c = true → (c != '$') = true :=
    fun c hc => bne_iff_ne.2 (ne_of_isMute hc (isMute_of_isTagChar rfl))
  rw [bindingName, r.filter_text hsigil, r.trimWhile_text fun _ => isBlank_of_isMute]
  rfl

theorem isSpoken_numbered (name : String) (hname : IsSpoken name.toList) (depth : Int) :
    IsSpoken (Translator.numbered name depth) := by
  have hdigits (n : Nat) : IsSpoken (Text.ofNat n) := fun c hc =>
    isMute_of_isNameChar (by simp [Text.isNameChar, Shelf.isDigit_of_mem_ofNat hc])
  cases depth with
  | ofNat n => exact hname.append (hdigits n)
  | negSucc n => exact hname.append (.cons (isMute_of_isTagChar rfl) (hdigits (n + 1)))

/-- The header with all its texts recoded. -/
def loopHeader (r : Recoding) (h : LoopHeader) : LoopHeader :=
  ⟨r.text h.collection, h.key.map r.text, h.value.map r.text⟩

section
variable (hr : r.Framed)
include hr

theorem emitIf_text (e : Chars) : Translator.emitIf (r.text e) = r.text (Translator.emitIf e) := by
  simp (disch := decide) only [Translator.emitIf, hr.tag, text_append, hr.text_eq, translate_text]

theorem emitElseif_text (t : Translator) (e : Chars) : t.emitElseif (r.text e) = r.text (t.emitElseif e) := by
  have hspace := r.text_cons_of_spoken (isMute_of_isTagChar (c := ' ') rfl)
  have hkeyword : r.text t.dialect.elseifKeyword = t.dialect.elseifKeyword := by
    cases t.dialect <;> exact r.text_of_isSpoken (isSpoken_of_tagChars (by decide))
  simp only [Translator.emitElseif, hr.tag, text_append, hkeyword, hspace, translate_text]

theorem emitConstant_text (name : Chars) :
    Translator.emitConstant (r.text name) = r.text (Translator.emitConstant name) := by
  simp (disch := decide) only [Translator.emitConstant, hr.output, text_append, hr.text_eq]

theorem emitInclude_text {t : Translator} (hext : r.text t.extension = t.extension) (file : Chars) :
    t.emitInclude (r.text file) = r.text (t.emitInclude file) := by
  have hcons := r.text_cons_of_spoken (isMute_of_isTagChar (c := '.') rfl)
  simp only [Translator.emitInclude, r.head?_text_eq_some_iff (c := '$') (by decide),
    r.contains_text (c := '.') (by decide)]
  split
  · rw [hr.includeDynamic, translate_text]
  · split
    · rw [hr.includeLiteral]
    · rw [hr.includeLiteral, text_append, hcons, hext]

theorem emitVariable_text (t : Translator) (body : Chars) :
    t.emitVariable (r.text body) = r.text (t.emitVariable body) := by
  simp only [Translator.emitVariable, translate_text, readAssignment_text]
  cases ha : readAssignment (Expression.translate body) with
  | none => rw [Option.map_none, filterNames_text, hr.rawOutput]
  | some a =>
    obtain ⟨name, operator, value⟩ := a
    obtain ⟨hname, hop⟩ := isSpoken_of_readAssignment ha
    simp only at hname hop
    cases operator with
    | none =>
      simp (disch := decide) only [Option.map_some, assignment, hr.tag, text_append, hr.text_eq,
        r.text_of_isSpoken hname]
    | some op =>
      have hspoken : isMute (if op = '.' then '~' else op) = false := by
        split
        · decide
        · exact hop op rfl
      have hjoin : r.text [' ', if op = '.' then '~' else op, ' '] =
          [' ', if op = '.' then '~' else op, ' '] :=
        r.text_of_isSpoken (.cons (isMute_of_isTagChar rfl) (.cons hspoken (isSpoken_of_tagChars rfl)))
      simp (disch := decide) only [Option.map_some, assignment, hr.tag, text_append, hr.text_eq,
        r.text_of_isSpoken hname, hjoin]

theorem emitFunction_text (t : Translator) (body : Chars) :
    t.emitFunction (r.text body) = r.text (t.emitFunction body) := by
  have hnames := spokenNames_readFunctionBody body
  have hopen := r.text_cons_of_spoken (isMute_of_isTagChar (c := '(') rfl)
  rw [Translator.emitFunction, readFunctionBody_text, Translator.emitFunction]
  cases hbody : readFunctionBody body with
  | method object chain args =>
    rw [hbody] at hnames
    have hchain : IsSpoken (chain.flatMap fun m => '.' :: m) := by
      intro c hc
      obtain ⟨m, hm, hc⟩ := List.mem_flatMap.1 hc
      exact (IsSpoken.cons (isMute_of_isTagChar rfl) (hnames.2 m hm)) c hc
    simp (disch := decide) only [functionBody, hr.rawOutput, text_append, List.cons_append, hopen, hr.text_eq,
      translate_text, r.text_of_isSpoken hnames.1, r.text_of_isSpoken hchain]
  | call name args =>
    rw [hbody] at hnames
    have hraw (e : Chars) : r.text (t.dialect.rawOutput ('(' :: name ++ '(' :: e ++ "))".toList)) =
        t.dialect.rawOutput ('(' :: name ++ '(' :: r.text e ++ "))".toList) := by
      simp (disch := decide) only [hr.rawOutput, text_append, List.cons_append, hopen, hr.text_eq,
        r.text_of_isSpoken hnames]
    have hcall (e : Chars) :
        (if r.text e ≠ [] ∧ ¬ hasTopComma {} (r.text e) then t.dialect.filterForm? name (r.text e)
          else none).getD (t.dialect.rawOutput ('(' :: name ++ '(' :: r.text e ++ "))".toList)) =
        r.text ((if e ≠ [] ∧ ¬ hasTopComma {} e then t.dialect.filterForm? name e else none).getD
          (t.dialect.rawOutput ('(' :: name ++ '(' :: e ++ "))".toList))) := by
      rw [hasTopComma_text hr (by simp), ← hr.filterForm?, ← hraw]
      simp only [ne_eq, r.text_eq_nil_iff]
      split
      · cases t.dialect.filterForm? name e <;> rfl
      · rfl
    cases args with
    | none => exact hcall []
    | some args =>
      have := hcall (Expression.translate args)
      rw [← translate_text] at this
      exact this
  | other =>
    simp (disch := decide) only [functionBody, hr.rawOutput, text_append, List.cons_append, hopen, hr.text_eq,
      translate_text]

theorem emitLoop_text (t : Translator) (depth : Int) (h : LoopHeader) :
    t.emitLoop depth (r.loopHeader h) = r.text (t.emitLoop depth h) := by
  obtain ⟨collection, key, value⟩ := h
  simp only [Translator.emitLoop, loopHeader, readCounting_text, translate_text]
  cases hc : readCounting collection with
  | some c =>
    obtain ⟨hvar, hfirst⟩ := isSpoken_of_readCounting hc
    simp only [Option.map_some, countingLoop, hr.forRange, translate_text, r.text_of_isSpoken hvar,
      r.text_of_isSpoken hfirst]
  | none =>
    have hkey := r.text_of_isSpoken (isSpoken_numbered "key" (isSpoken_of_tagChars (by decide)) depth)
    have hvalue := r.text_of_isSpoken (isSpoken_numbered "value" (isSpoken_of_tagChars (by decide)) depth)
    cases key with
    | none =>
      simp (disch := decide) only [Option.map_none, hr.forPair, hr.tag, text_append, hr.text_eq, hkey, hvalue]
    | some key =>
      cases value with
      | none => simp only [Option.map_none, Option.map_some, hr.forSingle, bindingName_text]
      | some value => simp only [Option.map_none, Option.map_some, hr.forPair, bindingName_text]

end

/-! ## Shields -/

/-- Literal shields as pairs. -/
def shields : Recoding where
  image c := if c = Shelf.opening then [Shelf.opening, Shelf.closing] else [c]
  image_cases c := by
    split
    · rename_i hc
      subst hc
      have hmute : isMute Shelf.opening = true ∧ isMute Shelf.closing = true := by decide +kernel
      exact .inr ⟨hmute.1, by simp, by simp [hmute]⟩
    · exact .inl rfl

theorem escape_eq (s : Chars) : Shelf.escape s = shields.text s := by
  induction s with
  | nil => rw [Shelf.escape_nil, text_nil]
  | cons c cs ih =>
    rw [Shelf.escape_cons, text_cons, ih]
    change _ = (if c = Shelf.opening then [Shelf.opening, Shelf.closing] else [c]) ++ shields.text cs
    split <;> rfl

theorem framed_shields : shields.Framed where
  brace c hc := if_neg (by rintro rfl; cases hc)
  other c hc d hd := by
    simp only [shields] at hd
    split at hd
    · simp only [List.mem_cons, List.not_mem_nil, or_false] at hd
      rcases hd with rfl | rfl <;> rfl
    · rwa [List.mem_singleton.1 hd]

end ViewBridge.Recoding
