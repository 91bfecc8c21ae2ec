import ViewBridge.Proofs.Loop.Translation
/-!
# Argument lists

What stands between the parentheses of a call: text, literals, and further arguments in parentheses of their
own. So behind an argument list a parenthesis closes the call and nothing in it does. The rules of expressions
neither read nor write a parenthesis outside literals, so this stays true of what they make of the list.

Results:
* `ArgumentList.shuts`: behind an argument list, a parenthesis closes what was open in front of it.
* `shuts_rewrite`: the rules leave alone which parenthesis closes what.
* `ArgumentList.shuts_translate`: a translated argument list is closed by the parenthesis behind it.
* `ArgumentList.exists_translate_call`: so is the list in a call that is translated as a whole.
-/
namespace ViewBridge.Expression

open Mode

/-- The two parentheses. -/
def isParenthesis (c : Char) : Bool := c == '(' || c == ')'

/-- The arguments of a call. -/
inductive ArgumentList : Chars → Prop where
  | nil : ArgumentList []
  | char {c : Char} {s : Chars} (hquote : isQuote c = false) (hparenthesis : isParenthesis c = false)
      (rest : ArgumentList s) : ArgumentList (c :: s)
  | literal (l : Literal) {s : Chars} (rest : ArgumentList s) : ArgumentList (l.text ++ s)
  | nested {s t : Chars} (inner : ArgumentList s) (rest : ArgumentList t) :
      ArgumentList ('(' :: s ++ ')' :: t)

/-- Text without quotes and parentheses, in front of more arguments. -/
theorem ArgumentList.lead {w s : Chars} (hw : (w.all fun c => !isQuote c && !isParenthesis c) = true)
    (h : ArgumentList s) : ArgumentList (w ++ s) := by
  induction w with
  | nil => exact h
  | cons c w ih =>
    rw [List.all_cons, Bool.and_eq_true, Bool.and_eq_true, Bool.not_eq_true', Bool.not_eq_true'] at hw
    exact .char hw.1.1 hw.1.2 (ih hw.2)

/-! ## What is closed -/

/-- Whether the first parenthesis that closes more than the text opens is the last character of the text, for a
reader inside of so many parentheses. -/
def shuts : Mode → Nat → Chars → Bool
  | _, _, [] => false
  | m, depth, c :: s =>
    if m = .outside ∧ c = '(' then shuts m (depth + 1) s
    else if m = .outside ∧ c = ')' then if depth = 0 then s.isEmpty else shuts m (depth - 1) s
    else shuts (m.step true c) depth s

section
variable {m : Mode} {depth : Nat} {c : Char} {s t : Chars}

theorem shuts_cons (h : m ≠ .outside ∨ isParenthesis c = false) (depth : Nat) (s : Chars) :
    shuts m depth (c :: s) = shuts (m.step true c) depth s := by
  have hnot {d : Char} (hd : isParenthesis d = true) : ¬ (m = .outside ∧ c = d) := by
    rintro ⟨rfl, rfl⟩
    rcases h with h | h
    · exact h rfl
    · rw [hd] at h
      cases h
  rw [shuts, if_neg (hnot rfl), if_neg (hnot rfl)]

/-- Outside of literals a parenthesis leaves the reader where it is. -/
theorem step_parenthesis (hm : m = .outside) (hc : isParenthesis c = true) : m.step true c = m := by
  subst hm
  simp only [isParenthesis, Bool.or_eq_true, beq_iff_eq] at hc
  rcases hc with rfl | rfl <;> rfl

/-- Texts that shut alike shut alike behind the same text. -/
theorem shuts_append_congr (hnil : s = [] ↔ t = []) (w : Chars)
    (h : ∀ depth, shuts (run true m w) depth s = shuts (run true m w) depth t) (depth : Nat) :
    shuts m depth (w ++ s) = shuts m depth (w ++ t) := by
  induction w generalizing m depth with
  | nil => exact h depth
  | cons c w ih =>
    rw [run_cons] at h
    have hempty : (w ++ s).isEmpty = (w ++ t).isEmpty := by
      rw [Bool.eq_iff_iff, List.isEmpty_iff, List.isEmpty_iff, List.append_eq_nil_iff, List.append_eq_nil_iff, hnil]
    rw [List.cons_append, List.cons_append, shuts, shuts]
    split
    · rename_i hopen
      rw [step_parenthesis hopen.1 (hopen.2 ▸ rfl)] at h
      exact ih h (depth + 1)
    · split
      · rename_i hclose
        rw [step_parenthesis hclose.1 (hclose.2 ▸ rfl)] at h
        rw [hempty]
        exact ite_congr rfl (fun _ => rfl) fun _ => ih h (depth - 1)
      · exact ih h depth

/-- Text without parentheses only says where the reader stands behind it. -/
theorem shuts_append_of_not_mem {w : Chars} (h : ∀ c ∈ w, isParenthesis c = false) (m : Mode) (depth : Nat)
    (s : Chars) : shuts m depth (w ++ s) = shuts (run true m w) depth s := by
  induction w generalizing m with
  | nil => rfl
  | cons c w ih =>
    rw [List.forall_mem_cons] at h
    rw [List.cons_append, shuts_cons (.inr h.1), run_cons, ih h.2]

/-- Text that leads from inside a literal to its end only leads there. -/
theorem shuts_append_of_inside {q : Char} (hm : m ≠ .outside) {body : Chars}
    (h : run false m body = .inside q) (depth : Nat) (s : Chars) :
    shuts m depth (body ++ s) = shuts (.inside q) depth s := by
  induction body generalizing m with
  | nil => rw [← h, run_nil, List.nil_append]
  | cons c body ih =>
    rw [run_cons] at h
    have hstep : m.step true c = m.step false c := by
      cases m with
      | outside => exact absurd rfl hm
      | inside | escaped => rfl
    have hinside : m.step false c ≠ .outside := by
      intro hout
      rw [hout, run_outside] at h
      cases h
    rw [List.cons_append, shuts_cons (.inl hm), hstep, ih hinside h]

theorem shuts_literal (l : Literal) (depth : Nat) (s : Chars) :
    shuts .outside depth (l.text ++ s) = shuts .outside depth s := by
  have hquote : isParenthesis l.quote = false := by
    have h := l.isQuote
    simp only [isQuote, Bool.or_eq_true, beq_iff_eq] at h
    rcases h with h | h <;> rw [h] <;> rfl
  have hopen : Mode.outside.step true l.quote = .inside l.quote := by
    rw [step, l.isQuote]
    rfl
  have hslash : l.quote ≠ '\\' := ne_of_isQuote l.isQuote (by decide)
  have hclose : (Mode.inside l.quote).step true l.quote = .outside := by
    rw [step, if_neg hslash, l.isQuote]
    simp
  rw [Literal.text, List.append_assoc, List.cons_append, shuts_cons (.inr hquote), hopen,
    shuts_append_of_inside Mode.noConfusion l.closes, List.singleton_append, shuts_cons (.inl Mode.noConfusion),
    hclose]

/-- Behind an argument list everything is as open as in front of it. -/
theorem ArgumentList.shuts {args : Chars} (h : ArgumentList args) (depth : Nat) (s : Chars) :
    shuts .outside depth (args ++ s) = shuts .outside depth s := by
  induction h generalizing depth s with
  | nil => rfl
  | char hquote hparenthesis _ ih =>
    rw [List.cons_append, shuts_cons (.inr hparenthesis), step, hquote]
    exact ih depth s
  | literal l _ ih => rw [List.append_assoc, shuts_literal, ih]
  | nested _ _ ihs iht =>
    rw [List.append_assoc, List.cons_append, Expression.shuts, if_pos ⟨rfl, rfl⟩, ihs, List.cons_append,
      Expression.shuts, if_neg (by simp), if_pos ⟨rfl, rfl⟩, if_neg (Nat.succ_ne_zero depth), Nat.add_sub_cancel, iht]

theorem getLast?_of_shuts (h : shuts m depth s = true) : s.getLast? = some ')' := by
  induction s generalizing m depth with
  | nil => cases h
  | cons c s ih =>
    have hlast {m : Mode} {depth : Nat} (h : shuts m depth s = true) : (c :: s).getLast? = some ')' := by
      rw [List.getLast?_cons, ih h]
      rfl
    rw [shuts] at h
    split at h
    · exact hlast h
    · split at h
      · rename_i hclose
        split at h
        · rw [List.isEmpty_iff.1 h, hclose.2]
          rfl
        · exact hlast h
      · exact hlast h

end

/-! ## Rules for all of the text -/

/-- A rule that opens and closes with what it writes what it does with what it reads. -/
structure Sheltering (find : Chars → Option (Chars × Chars)) : Prop where
  writes : ∀ {s out rest}, find s = some (out, rest) → out ≠ []
  shuts : ∀ {s out rest}, find s = some (out, rest) →
    ∃ used, s = used ++ rest ∧ ∀ m depth t, shuts m depth (used ++ t) = shuts m depth (out ++ t)

theorem substitute_eq_nil_iff {find : Chars → Option (Chars × Chars)}
    (h : ∀ {s out rest}, find s = some (out, rest) → out ≠ []) (s : Chars) :
    Text.substitute find s = [] ↔ s = [] := by
  cases s with
  | nil => simp
  | cons c s =>
    rw [Text.substitute]
    cases hf : find (c :: s) with
    | none => simp
    | some r =>
      have hout : r.1 ≠ [] := h (show find (c :: s) = some (r.1, r.2) from hf)
      simp only
      split
      · simp [hout]
      · simp

/-- A rule opens and closes nothing in texts of a kind for which it does not where it reads. -/
theorem shuts_substitute_of {find : Chars → Option (Chars × Chars)} {P : Mode → Chars → Prop}
    (hwrites : ∀ {s out rest}, find s = some (out, rest) → out ≠ [])
    (hstep : ∀ {m c s}, P m (c :: s) → P (m.step true c) s)
    (hfind : ∀ {m s out rest}, P m s → find s = some (out, rest) →
      ∃ used, s = used ++ rest ∧ P (run true m out) rest ∧
        ∀ depth t, shuts m depth (used ++ t) = shuts m depth (out ++ t))
    {m : Mode} {s : Chars} (hs : P m s) (depth : Nat) (t : Chars) :
    shuts m depth (Text.substitute find s ++ t) = shuts m depth (s ++ t) := by
  have hnil (s : Chars) : Text.substitute find s ++ t = [] ↔ s ++ t = [] := by
    rw [List.append_eq_nil_iff, List.append_eq_nil_iff, substitute_eq_nil_iff hwrites]
  induction hn : s.length using Nat.strongRecOn generalizing s m depth with
  | ind n ih =>
    cases s with
    | nil => rw [Text.substitute_nil]
    | cons c s =>
      rw [List.length_cons] at hn
      have hcopy : shuts m depth (c :: Text.substitute find s ++ t) = shuts m depth (c :: s ++ t) :=
        shuts_append_congr (hnil s) [c] (fun depth => ih s.length (by omega) (hstep hs) depth rfl) depth
      rw [Text.substitute]
      cases hf : find (c :: s) with
      | none => exact hcopy
      | some r =>
        obtain ⟨out, rest⟩ := r
        simp only
        split
        · rename_i hlen
          obtain ⟨used, hused, hrest, hshuts⟩ := hfind hs hf
          have hgo := shuts_append_congr (m := m) (hnil rest) out fun depth =>
            ih rest.length (by omega) hrest depth rfl
          rw [List.append_assoc, hgo depth, hused, List.append_assoc, hshuts]
        · exact hcopy

theorem Sheltering.shuts_substitute {find : Chars → Option (Chars × Chars)} (h : Sheltering find) (m : Mode)
    (depth : Nat) (s t : Chars) :
    Expression.shuts m depth (Text.substitute find s ++ t) = Expression.shuts m depth (s ++ t) := by
  refine shuts_substitute_of (P := fun _ _ => True) h.writes (fun _ => trivial) (fun {m s out rest} _ hf => ?_)
    trivial depth t
  obtain ⟨used, hs, hshuts⟩ := h.shuts hf
  exact ⟨used, hs, trivial, hshuts m⟩

/-- Text in which nothing has to do with quotes or parentheses. -/
def Even (s : Chars) : Prop := ∀ c ∈ s, (isQuote c = false ∧ c ≠ '\\') ∧ isParenthesis c = false

namespace Even

variable {s t : Chars}

theorem of_all (h : (s.all fun c => !isQuote c && c != '\\' && !isParenthesis c) = true) : Even s :=
  fun c hc => by simpa [and_assoc] using List.all_eq_true.1 h c hc

theorem append (hs : Even s) (ht : Even t) : Even (s ++ t) :=
  fun c hc => (List.mem_append.1 hc).elim (hs c) (ht c)

theorem bare (h : Even s) : Bare s := fun c hc => (h c hc).1

theorem name {c : Char} (h : Text.isNameChar c = true) : Even [c] := by
  intro d hd
  rw [List.mem_singleton.1 hd]
  refine ⟨isQuote_of_nameChar h, ?_⟩
  cases hparenthesis : isParenthesis c with
  | false => rfl
  | true =>
    simp only [isParenthesis, Bool.or_eq_true, beq_iff_eq] at hparenthesis
    rcases hparenthesis with rfl | rfl <;> revert h <;> decide

theorem blanks (h : ∀ c ∈ s, Text.isBlank c = true) : Even s := by
  intro c hc
  refine ⟨isQuote_of_blank (h c hc), ?_⟩
  cases hparenthesis : isParenthesis c with
  | false => rfl
  | true =>
    have hblank := h c hc
    simp only [isParenthesis, Bool.or_eq_true, beq_iff_eq] at hparenthesis
    rcases hparenthesis with rfl | rfl <;> revert hblank <;> decide

/-- Such a text does the same as any other of its kind. -/
theorem shuts_congr (hs : Even s) (ht : Even t) (hsne : s ≠ []) (htne : t ≠ []) (m : Mode) (depth : Nat)
    (u : Chars) : shuts m depth (s ++ u) = shuts m depth (t ++ u) := by
  rw [shuts_append_of_not_mem (fun c hc => (hs c hc).2), shuts_append_of_not_mem (fun c hc => (ht c hc).2),
    run_bare _ _ hs.bare hsne, run_bare _ _ ht.bare htne]

end Even

theorem sheltering_exchange {old new : Chars} (hold : Even old) (hnew : Even new) (hne : old ≠ [])
    (hne' : new ≠ []) : Sheltering (Text.exchange old new) where
  writes hf := by
    obtain ⟨rfl, -⟩ := Text.exchange_eq_some hf
    exact hne'
  shuts hf := by
    obtain ⟨rfl, hs⟩ := Text.exchange_eq_some hf
    exact ⟨old, hs, hold.shuts_congr hnew hne hne'⟩

theorem sheltering_readSigil : Sheltering readSigil where
  writes hf := by
    obtain ⟨c, -, -, rfl⟩ := readSigil_eq_some hf
    exact List.cons_ne_nil c []
  shuts hf := by
    obtain ⟨c, hc, rfl, rfl⟩ := readSigil_eq_some hf
    have hname := Even.name (Text.isNameChar_of_isNameStart hc)
    have hsigil : Even ('$' :: [c]) := Even.append (s := ['$']) (.of_all (by decide)) hname
    exact ⟨['$', c], rfl, hsigil.shuts_congr hname (by simp) (by simp)⟩

theorem sheltering_readNot : Sheltering readNot where
  writes hf := by
    obtain ⟨-, rfl⟩ := readNot_eq_some hf
    decide
  shuts hf := by
    obtain ⟨rfl, rfl⟩ := readNot_eq_some hf
    have hmark : Even ['!'] := .of_all (by decide)
    exact ⟨['!'], rfl, hmark.shuts_congr (.of_all (by decide)) (by simp) (by simp)⟩

theorem sheltering_readSpaced {operator word : Chars} (hoperator : Even operator) (hword : Even word)
    (hne : operator ≠ []) (hne' : word ≠ []) : Sheltering (readSpaced operator word) where
  writes hf := by
    obtain ⟨rfl, -⟩ := readSpaced_eq_some hf
    exact hne'
  shuts hf := by
    obtain ⟨rfl, before, behind, hblank, rfl⟩ := readSpaced_eq_some hf
    rw [List.forall_mem_append] at hblank
    have hused : Even (before ++ operator ++ behind) :=
      ((Even.blanks hblank.1).append hoperator).append (.blanks hblank.2)
    exact ⟨_, rfl, hused.shuts_congr hword (by simp [hne]) hne'⟩

theorem even_of_map_toLower {used word : Chars} (hword : Even word) (h : used.map Char.toLower = word) :
    Even used := by
  intro c hc
  have hlower := hword c.toLower (h ▸ List.mem_map_of_mem hc)
  refine ⟨⟨?_, ?_⟩, ?_⟩
  · cases hq : isQuote c with
    | false => rfl
    | true =>
      rw [toLower_of_isQuote hq, hq] at hlower
      cases hlower.1.1
  · rintro rfl
    exact hlower.1.2 rfl
  · cases hparenthesis : isParenthesis c with
    | false => rfl
    | true =>
      simp only [isParenthesis, Bool.or_eq_true, beq_iff_eq] at hparenthesis
      rcases hparenthesis with rfl | rfl <;> cases hlower.2

theorem sheltering_readWord {word : Chars} (hword : Even word) : Sheltering (readWord word) where
  writes hf := by
    obtain ⟨rfl, -⟩ := readWord_eq_some hf
    simp
  shuts hf := by
    obtain ⟨rfl, used, hused, rfl⟩ := readWord_eq_some hf
    have hspace : Even [' '] := .of_all (by decide)
    have hread : Even (' ' :: used ++ [' ']) := (hspace.append (even_of_map_toLower hword hused)).append hspace
    have hwritten : Even (' ' :: word ++ [' ']) := (hspace.append hword).append hspace
    exact ⟨' ' :: used ++ [' '], by simp, hread.shuts_congr hwritten (by simp) (by simp)⟩

theorem Sheltering.or {find find' : Chars → Option (Chars × Chars)} (h : Sheltering find)
    (h' : Sheltering find') : Sheltering fun s => (find s).or (find' s) where
  writes hf := by
    rcases Option.or_eq_some_iff.1 hf with hf | ⟨-, hf⟩
    · exact h.writes hf
    · exact h'.writes hf
  shuts hf := by
    rcases Option.or_eq_some_iff.1 hf with hf | ⟨-, hf⟩
    · exact h.shuts hf
    · exact h'.shuts hf

theorem sheltering_readLogicWord : Sheltering readLogicWord := by
  have hor := (sheltering_readWord (.of_all (s := "and".toList) (by decide))).or
    (sheltering_readWord (.of_all (s := "or".toList) (by decide)))
  convert hor using 1
  funext s
  exact readLogicWord_eq s

theorem sheltering_readQuoteDot : Sheltering readQuoteDot where
  writes hf := by
    obtain ⟨q, c, -, -, -, rfl⟩ := readQuoteDot_eq_some hf
    simp
  shuts hf := by
    obtain ⟨q, c, -, hc, rfl, rfl⟩ := readQuoteDot_eq_some hf
    have hname := Even.name (Text.isNameChar_of_isNameStart hc)
    have hdot : Even ('.' :: [c]) := Even.append (s := ['.']) (.of_all (by decide)) hname
    have htilde : Even (" ~ ".toList ++ [c]) := Even.append (.of_all (by decide)) hname
    refine ⟨[q, '.', c], rfl, fun m depth t => ?_⟩
    exact shuts_append_congr (by simp) [q] (fun depth => hdot.shuts_congr htilde (by simp) (by simp) _ depth t) depth

/-- The character in front of the dot may be a parenthesis, and is written again. -/
theorem sheltering_readDotQuote : Sheltering readDotQuote where
  writes hf := by
    obtain ⟨c, q, -, -, -, rfl⟩ := readDotQuote_eq_some hf
    simp
  shuts hf := by
    obtain ⟨c, q, -, -, rfl, rfl⟩ := readDotQuote_eq_some hf
    have hdot : Even ['.'] := .of_all (by decide)
    have htilde : Even " ~ ".toList := .of_all (by decide)
    refine ⟨[c, '.', q], rfl, fun m depth t => ?_⟩
    exact shuts_append_congr (by simp) [c]
      (fun depth => hdot.shuts_congr htilde (by simp) (by decide) _ depth (q :: t)) depth

/-! ## Rules for text outside literals -/

/-- A literal is read to its end, or to the end of the text. -/
theorem run_readLiteral {q : Char} (hq : isQuote q = true) (s : Chars) :
    run true (.inside q) (readLiteral q s).1 = .outside ∨ (readLiteral q s).2 = [] := by
  have hslash : q ≠ '\\' := ne_of_isQuote hq (by decide)
  fun_induction readLiteral q s with
  | case1 => exact .inr rfl
  | case2 => exact .inr rfl
  | case3 d rest body tail hread ih =>
    rw [hread] at ih
    exact ih
  | case4 d rest hc =>
    rw [run_cons, run_nil, step, if_neg hslash, hq]
    exact .inl (by simp)
  | case5 c d rest hc hclose body tail hread ih =>
    rw [hread] at ih
    rw [run_cons, step, if_neg hc, if_neg (by simp [hclose])]
    exact ih

theorem mapUnquoted_eq_nil_iff {find : Chars → Option (Chars × Chars)}
    (h : ∀ {s out rest}, find s = some (out, rest) → out ≠ []) (s : Chars) :
    mapUnquoted (Text.substitute find) s = [] ↔ s = [] := by
  have hsplit := List.takeWhile_append_dropWhile (p := fun c => !isQuote c) (l := s)
  rw [mapUnquoted]
  split
  · rename_i hd
    rw [hd, List.append_nil] at hsplit
    rw [substitute_eq_nil_iff h, hsplit]
  · rename_i q rest hd
    rw [hd] at hsplit
    rw [← hsplit]
    simp

/-- A rule that opens and closes nothing in text without quotes does so nowhere outside of literals. -/
theorem shuts_mapUnquoted {find : Chars → Option (Chars × Chars)}
    (hwrites : ∀ {s out rest}, find s = some (out, rest) → out ≠ [])
    (hrule : ∀ u : Unquoted, ∀ depth t,
      shuts .outside depth (Text.substitute find u.1 ++ t) = shuts .outside depth (u.1 ++ t)) (depth : Nat)
    (s t : Chars) :
    shuts .outside depth (mapUnquoted (Text.substitute find) s ++ t) = shuts .outside depth (s ++ t) := by
  have hnil (s : Chars) : mapUnquoted (Text.substitute find) s ++ t = [] ↔ s ++ t = [] := by
    rw [List.append_eq_nil_iff, List.append_eq_nil_iff, mapUnquoted_eq_nil_iff hwrites]
  induction hn : s.length using Nat.strongRecOn generalizing s depth with
  | ind n ih =>
    have hplain : ∀ c ∈ s.takeWhile (fun c => !isQuote c), isQuote c = false :=
      fun c hc => by simpa using List.mem_takeWhile_imp hc
    have hsplit := List.takeWhile_append_dropWhile (p := fun c => !isQuote c) (l := s)
    generalize s.takeWhile (fun c => !isQuote c) = u at hplain hsplit
    cases hd : s.dropWhile (fun c => !isQuote c) with
    | nil =>
      rw [hd, List.append_nil] at hsplit
      rw [← hsplit, mapUnquoted_eq_self hplain]
      exact hrule ⟨u, hplain⟩ depth t
    | cons q rest =>
      have hq : isQuote q = true := by
        have hne : s.dropWhile (fun c => !isQuote c) ≠ [] := by rw [hd]; simp
        simpa [hd] using List.head_dropWhile_not (fun c => !isQuote c) hne
      rw [hd] at hsplit
      have hlen := readLiteral_length q rest
      have hlen' := congrArg List.length hsplit
      rw [List.length_append, List.length_cons] at hlen'
      rw [← hsplit, mapUnquoted_of_plain hplain hq]
      have hrest : u ++ q :: rest = u ++ (q :: (readLiteral q rest).1 ++ (readLiteral q rest).2) := by
        rw [List.cons_append, readLiteral_append]
      rw [hrest, List.append_assoc, List.append_assoc, List.append_assoc, List.append_assoc, hrule ⟨u, hplain⟩,
        ← List.append_assoc, ← List.append_assoc u]
      refine shuts_append_congr (hnil _) _ (fun depth => ?_) depth
      rw [run_append, run_unquoted ⟨u, hplain⟩, run_cons, step, hq]
      rcases run_readLiteral hq rest with hout | htail
      · rw [Bool.true_and, if_pos rfl, hout]
        exact ih _ (by omega) depth _ rfl
      · have hempty : mapUnquoted (Text.substitute find) [] = [] := (mapUnquoted_eq_nil_iff hwrites []).2 rfl
        rw [htail, hempty]

/-- Bare keys get their quotes outside of literals only. -/
theorem shuts_quoteKeys (depth : Nat) (s t : Chars) :
    shuts .outside depth (quoteKeys s ++ t) = shuts .outside depth (s ++ t) := by
  have hwrites {s out rest : Chars} (hf : readBareKey s = some (out, rest)) : out ≠ [] := by
    obtain ⟨name, -, -, rfl⟩ := readBareKey_eq_some hf
    simp
  refine shuts_mapUnquoted hwrites (fun u depth t => ?_) depth s t
  refine shuts_substitute_of (P := fun m s => m = .outside ∧ ∀ c ∈ s, isQuote c = false) hwrites
    (fun {m c s} h => ?_) (fun {m s out rest} h hf => ?_) ⟨rfl, u.2⟩ depth t
  · obtain ⟨rfl, hs⟩ := h
    rw [List.forall_mem_cons] at hs
    rw [step, hs.1]
    exact ⟨rfl, hs.2⟩
  · obtain ⟨rfl, hs⟩ := h
    obtain ⟨name, hname, rfl, rfl⟩ := readBareKey_eq_some hf
    have hnameEven : Even name := fun c hc => Even.name (hname c hc) c (List.mem_singleton.2 rfl)
    have hrun : run true .outside ("['".toList ++ name ++ "']".toList) = .outside := by
      rw [run_append, run_append]
      by_cases hnil : name = []
      · rw [hnil]
        rfl
      · rw [run_bare _ _ hnameEven.bare hnil]
        rfl
    have hused : Even ('[' :: name ++ [']']) :=
      Even.append (Even.append (s := ['[']) (.of_all (by decide)) hnameEven) (.of_all (by decide))
    have hout : ∀ c ∈ "['".toList ++ name ++ "']".toList, isParenthesis c = false := by
      rw [List.forall_mem_append, List.forall_mem_append]
      exact ⟨⟨by simp [isParenthesis], fun c hc => (hnameEven c hc).2⟩, by simp [isParenthesis]⟩
    refine ⟨'[' :: name ++ [']'], by simp, ⟨hrun, fun c hc => hs c (by simp [hc])⟩, fun depth t => ?_⟩
    rw [shuts_append_of_not_mem (fun c hc => (hused c hc).2), shuts_append_of_not_mem hout, hrun,
      run_bare _ _ hused.bare (by simp)]
    rfl

theorem shuts_negations (depth : Nat) (s t : Chars) :
    shuts .outside depth (negations s ++ t) = shuts .outside depth (s ++ t) := by
  rw [negations, funext spellNot_eq]
  exact shuts_mapUnquoted sheltering_readNot.writes
    (fun u depth t => sheltering_readNot.shuts_substitute .outside depth u.1 t) depth s t

/-! ## Translated argument lists -/

/-- What the rules make of an expression before it loses the blanks at its ends. -/
def rewrite (e : Chars) : Chars := spellLogic (negations (tildeJoins (dotArrows (dropSigils (quoteKeys e)))))

theorem translate_eq_trim (e : Chars) : translate e = Text.trimWhile Text.isBlank (rewrite e) := rfl

/-- The rules leave alone which parenthesis closes what. -/
theorem shuts_rewrite (depth : Nat) (s t : Chars) :
    shuts .outside depth (rewrite s ++ t) = shuts .outside depth (s ++ t) := by
  have hreplace {old new : String} (hold : Even old.toList) (hnew : Even new.toList) (hne : old.toList ≠ [])
      (hne' : new.toList ≠ []) (s : Chars) :
      shuts .outside depth (Text.replace old.toList new.toList s ++ t) = shuts .outside depth (s ++ t) := by
    rw [Text.replace_eq_substitute _ hne]
    exact (sheltering_exchange hold hnew hne hne').shuts_substitute .outside depth s t
  have hspaced {operator word : String} (hoperator : Even operator.toList) (hword : Even word.toList)
      (hne : operator.toList ≠ []) (hne' : word.toList ≠ []) (s : Chars) :
      shuts .outside depth (Text.substitute (readSpaced operator.toList word.toList) s ++ t) =
        shuts .outside depth (s ++ t) :=
    (sheltering_readSpaced hoperator hword hne hne').shuts_substitute .outside depth s t
  rw [rewrite, spellLogic, sheltering_readLogicWord.shuts_substitute,
    hspaced (.of_all (by decide)) (.of_all (by decide)) (by decide) (by decide),
    hspaced (.of_all (by decide)) (.of_all (by decide)) (by decide) (by decide), shuts_negations, tildeJoins,
    sheltering_readDotQuote.shuts_substitute, sheltering_readQuoteDot.shuts_substitute,
    hreplace (.of_all (by decide)) (.of_all (by decide)) (by decide) (by decide), dotArrows,
    hreplace (.of_all (by decide)) (.of_all (by decide)) (by decide) (by decide), dropSigils_eq,
    sheltering_readSigil.shuts_substitute, shuts_quoteKeys]

theorem shuts_dropWhile_isBlank (depth : Nat) (s : Chars) :
    shuts .outside depth (s.dropWhile Text.isBlank) = shuts .outside depth s := by
  have hblanks : ∀ c ∈ s.takeWhile Text.isBlank, Text.isBlank c = true := fun c hc => List.mem_takeWhile_imp hc
  conv_rhs => rw [← List.takeWhile_append_dropWhile (p := Text.isBlank) (l := s)]
  rw [shuts_append_of_not_mem fun c hc => (Even.blanks hblanks c hc).2]
  by_cases hnil : s.takeWhile Text.isBlank = []
  · rw [hnil, run_nil]
  · rw [run_bare _ _ (Even.blanks hblanks).bare hnil]
    rfl

/-- Blanks in front of the last parenthesis do not matter. -/
theorem shuts_append_blanks {blanks : Chars} (hblanks : ∀ c ∈ blanks, Text.isBlank c = true) (m : Mode)
    (depth : Nat) (s : Chars) : shuts m depth (s ++ (blanks ++ [')'])) = shuts m depth (s ++ [')']) := by
  by_cases hnil : blanks = []
  · rw [hnil, List.nil_append]
  · refine shuts_append_congr (by simp) s (fun depth => ?_) depth
    rw [shuts_append_of_not_mem (fun c hc => (Even.blanks hblanks c hc).2),
      run_bare _ _ (Even.blanks hblanks).bare hnil]
    cases run true m s <;> rfl

theorem shuts_trim (s : Chars) :
    shuts .outside 0 (Text.trimWhile Text.isBlank s ++ [')']) = shuts .outside 0 (s ++ [')']) := by
  have hblank : Text.isBlank ')' = false := by decide
  have hstart : shuts .outside 0 (s.dropWhile Text.isBlank ++ [')']) = shuts .outside 0 (s ++ [')']) := by
    rw [← Text.dropWhile_append_cons hblank, shuts_dropWhile_isBlank]
  have hend (t : Chars) : shuts .outside 0 (Text.dropEndWhile Text.isBlank t ++ [')']) =
      shuts .outside 0 (t ++ [')']) := by
    have hblanks : ∀ c ∈ (t.reverse.takeWhile Text.isBlank).reverse, Text.isBlank c = true :=
      fun c hc => List.mem_takeWhile_imp (List.mem_reverse.1 hc)
    rw [← shuts_append_blanks hblanks, Text.dropEndWhile, ← List.append_assoc, ← List.reverse_append,
      List.takeWhile_append_dropWhile, List.reverse_reverse]
  rw [Text.trimWhile, hend, hstart]

/-- A translated argument list is closed by the parenthesis behind it. -/
theorem ArgumentList.shuts_translate {args : Chars} (h : ArgumentList args) :
    Expression.shuts .outside 0 (translate args ++ [')']) = true := by
  rw [translate_eq_trim, shuts_trim, shuts_rewrite, h.shuts]
  rfl

/-! ## Calls -/

/-- A rule that reads nothing at a name or at the parenthesis behind it. -/
def Skips (find : Chars → Option (Chars × Chars)) : Prop :=
  ∀ c s, (Text.isNameChar c = true ∧ s.head? ≠ some '.') ∨ c = '(' → find (c :: s) = none

theorem Skips.substitute {find : Chars → Option (Chars × Chars)} (h : Skips find) {name : Chars}
    (hname : ∀ c ∈ name, Text.isNameChar c = true) (s : Chars) :
    Text.substitute find (name ++ '(' :: s) = name ++ '(' :: Text.substitute find s := by
  induction name with
  | nil => exact Text.substitute_cons_of_none (h '(' s (.inr rfl))
  | cons c name ih =>
    rw [List.forall_mem_cons] at hname
    have hdot : (name ++ '(' :: s).head? ≠ some '.' := by
      cases name with
      | nil => simp
      | cons d name =>
        rw [List.forall_mem_cons] at hname
        rw [List.cons_append, List.head?_cons]
        rintro ⟨⟩
        cases hname.2.1
    rw [List.cons_append, Text.substitute_cons_of_none (h c _ (.inl ⟨hname.1, hdot⟩)), ih hname.2]
    rfl

/-- A rule that reads only at characters of a kind that names and parentheses are not of. -/
theorem skips_of_head {find : Chars → Option (Chars × Chars)} (p : Char → Bool)
    (hfind : ∀ c s, p c = false → find (c :: s) = none) (hname : ∀ c, Text.isNameChar c = true → p c = false)
    (hparen : p '(' = false) : Skips find := by
  rintro c s (⟨hc, -⟩ | rfl)
  · exact hfind c s (hname c hc)
  · exact hfind _ s hparen

theorem skips_of_ne {find : Chars → Option (Chars × Chars)} (d : Char)
    (hfind : ∀ c s, c ≠ d → find (c :: s) = none) (hname : Text.isNameChar d = false) (hparen : d ≠ '(') :
    Skips find := by
  refine skips_of_head (· == d) (fun c s hc => hfind c s (beq_eq_false_iff_ne.1 hc)) (fun c hc => ?_)
    (beq_eq_false_iff_ne.2 hparen.symm)
  refine beq_eq_false_iff_ne.2 ?_
  rintro rfl
  rw [hc] at hname
  cases hname

theorem skips_exchange {c : Char} {old : Chars} (new : Chars) (hname : Text.isNameChar c = false) (hparen : c ≠ '(') :
    Skips (Text.exchange (c :: old) new) := by
  refine skips_of_ne c (fun d s hd => ?_) hname hparen
  rw [Text.exchange, Text.after?, if_neg hd.symm, Option.map_none]

theorem skips_readNot : Skips readNot := by
  refine skips_of_ne '!' (fun c s hc => Option.eq_none_iff_forall_ne_some.2 fun r hr => ?_) rfl (by decide)
  exact hc (List.cons.inj (readNot_eq_some (show readNot (c :: s) = some (r.1, r.2) from hr)).1).1

theorem skips_readBareKey : Skips readBareKey := by
  refine skips_of_ne '[' (fun c s hc => Option.eq_none_iff_forall_ne_some.2 fun r hr => ?_) rfl (by decide)
  obtain ⟨name, -, hs, -⟩ := readBareKey_eq_some (show readBareKey (c :: s) = some (r.1, r.2) from hr)
  exact hc (List.cons.inj hs).1

theorem skips_readLogicWord : Skips readLogicWord := by
  have hword {word s : Chars} {c : Char} (hc : c ≠ ' ') : readWord word (c :: s) = none := by
    refine Option.eq_none_iff_forall_ne_some.2 fun r hr => ?_
    obtain ⟨-, used, -, hs⟩ := readWord_eq_some (show readWord word (c :: s) = some (r.1, r.2) from hr)
    exact hc (List.cons.inj hs).1
  refine skips_of_ne ' ' (fun c s hc => ?_) rfl (by decide)
  rw [readLogicWord_eq, hword hc, hword hc]
  rfl

theorem skips_readSpaced {x : Char} {operator : Chars} (word : Chars) (hname : Text.isNameChar x = false)
    (hparen : x ≠ '(') : Skips (readSpaced (x :: operator) word) := by
  refine skips_of_head (fun c => Text.isBlank c || c == x) (fun c s hc => ?_) (fun c hc => ?_) ?_
  · refine Option.eq_none_iff_forall_ne_some.2 fun r hr => ?_
    obtain ⟨-, before, behind, hblank, hs⟩ := readSpaced_eq_some (show _ = some (r.1, r.2) from hr)
    rw [Bool.or_eq_false_iff, beq_eq_false_iff_ne] at hc
    cases before with
    | nil => exact hc.2 (List.cons.inj hs).1
    | cons d before =>
      obtain rfl : c = d := (List.cons.inj hs).1
      rw [hblank c (by simp)] at hc
      cases hc.1
  · rw [isBlank_of_isNameChar hc, Bool.false_or, beq_eq_false_iff_ne]
    rintro rfl
    rw [hc] at hname
    cases hname
  · rw [Bool.or_eq_false_iff, beq_eq_false_iff_ne]
    exact ⟨by decide, hparen.symm⟩

theorem skips_readQuoteDot : Skips readQuoteDot :=
  skips_of_head isQuote (fun _ s hc => readQuoteDot_of_not_quote hc s) (fun _ hc => (isQuote_of_nameChar hc).1) rfl

/-- This rule reads at names, but only at those in front of a dot. -/
theorem skips_readDotQuote : Skips readDotQuote := by
  intro c s h
  refine Option.eq_none_iff_forall_ne_some.2 fun r hr => ?_
  obtain ⟨d, q, hjoins, -, hs, -⟩ := readDotQuote_eq_some (show readDotQuote (c :: s) = some (r.1, r.2) from hr)
  obtain ⟨rfl, rfl⟩ := List.cons.inj hs
  rcases h with ⟨-, hdot⟩ | rfl
  · exact hdot rfl
  · cases hjoins

section
variable {name : Chars} (hname : ∀ c ∈ name, Text.isNameChar c = true)
include hname

theorem mapUnquoted_call {find : Chars → Option (Chars × Chars)} (h : Skips find) (s : Chars) :
    mapUnquoted (Text.substitute find) (name ++ '(' :: s) =
      name ++ '(' :: mapUnquoted (Text.substitute find) s := by
  have hcall {u : Chars} (hu : ∀ c ∈ u, isQuote c = false) : ∀ c ∈ name ++ '(' :: u, isQuote c = false := by
    rw [List.forall_mem_append, List.forall_mem_cons]
    exact ⟨fun c hc => (isQuote_of_nameChar (hname c hc)).1, rfl, hu⟩
  have hplain : ∀ c ∈ s.takeWhile (fun c => !isQuote c), isQuote c = false :=
    fun c hc => by simpa using List.mem_takeWhile_imp hc
  have hsplit := List.takeWhile_append_dropWhile (p := fun c => !isQuote c) (l := s)
  generalize s.takeWhile (fun c => !isQuote c) = u at hplain hsplit
  cases hd : s.dropWhile (fun c => !isQuote c) with
  | nil =>
    rw [hd, List.append_nil] at hsplit
    rw [← hsplit, mapUnquoted_eq_self (hcall hplain), mapUnquoted_eq_self hplain, h.substitute hname]
  | cons q rest =>
    have hq : isQuote q = true := by
      have hne : s.dropWhile (fun c => !isQuote c) ≠ [] := by rw [hd]; simp
      simpa [hd] using List.head_dropWhile_not (fun c => !isQuote c) hne
    have hshape : name ++ '(' :: (u ++ q :: rest) = (name ++ '(' :: u) ++ q :: rest := by simp
    rw [hd] at hsplit
    rw [← hsplit, hshape, mapUnquoted_of_plain (hcall hplain) hq, mapUnquoted_of_plain hplain hq,
      h.substitute hname]
    simp only [List.append_assoc, List.cons_append]

/-- The rules leave the name of a call alone. -/
theorem rewrite_call (s : Chars) : rewrite (name ++ '(' :: s) = name ++ '(' :: rewrite s := by
  have hreplace {c : Char} {old new : Chars} (hc : Text.isNameChar c = false) (hparen : c ≠ '(') (s : Chars) :
      Text.replace (c :: old) new (name ++ '(' :: s) = name ++ '(' :: Text.replace (c :: old) new s := by
    rw [Text.replace_eq_substitute _ (List.cons_ne_nil c old), Text.replace_eq_substitute _ (List.cons_ne_nil c old),
      (skips_exchange new hc hparen).substitute hname]
  have hkeys (s : Chars) : quoteKeys (name ++ '(' :: s) = name ++ '(' :: quoteKeys s :=
    mapUnquoted_call hname skips_readBareKey s
  have hsigils (s : Chars) : dropSigils (name ++ '(' :: s) = name ++ '(' :: dropSigils s := by
    rw [dropSigils_eq, dropSigils_eq]
    exact (skips_of_ne '$' (fun _ s hc => readSigil_of_ne hc s) rfl (by decide)).substitute hname s
  have harrows (s : Chars) : dotArrows (name ++ '(' :: s) = name ++ '(' :: dotArrows s :=
    hreplace rfl (by decide) s
  have hjoins (s : Chars) : tildeJoins (name ++ '(' :: s) = name ++ '(' :: tildeJoins s := by
    have hdots : Text.replace " . ".toList " ~ ".toList (name ++ '(' :: s) =
        name ++ '(' :: Text.replace " . ".toList " ~ ".toList s := hreplace rfl (by decide) s
    rw [tildeJoins, hdots, skips_readQuoteDot.substitute hname, skips_readDotQuote.substitute hname]
    rfl
  have hnegations (s : Chars) : negations (name ++ '(' :: s) = name ++ '(' :: negations s := by
    rw [negations, funext spellNot_eq]
    exact mapUnquoted_call hname skips_readNot s
  have hspaced {x : Char} {operator word : Chars} (hx : Text.isNameChar x = false) (hparen : x ≠ '(') (s : Chars) :
      Text.substitute (readSpaced (x :: operator) word) (name ++ '(' :: s) =
        name ++ '(' :: Text.substitute (readSpaced (x :: operator) word) s :=
    (skips_readSpaced word hx hparen).substitute hname s
  have hlogic (s : Chars) : spellLogic (name ++ '(' :: s) = name ++ '(' :: spellLogic s := by
    have hand : Text.substitute (readSpaced "&&".toList " and ".toList) (name ++ '(' :: s) =
        name ++ '(' :: Text.substitute (readSpaced "&&".toList " and ".toList) s := hspaced rfl (by decide) s
    have hor (s : Chars) : Text.substitute (readSpaced "||".toList " or ".toList) (name ++ '(' :: s) =
        name ++ '(' :: Text.substitute (readSpaced "||".toList " or ".toList) s := hspaced rfl (by decide) s
    rw [spellLogic, hand, hor, skips_readLogicWord.substitute hname]
    rfl
  rw [rewrite, hkeys, hsigils, harrows, hjoins, hnegations, hlogic]
  rfl

/-- A call that is translated as a whole is a call of the same name, and the last parenthesis closes it. -/
theorem ArgumentList.exists_translate_call (hne : name ≠ []) {args : Chars} (h : ArgumentList args) :
    ∃ behind, translate (name ++ '(' :: (args ++ [')'])) = name ++ '(' :: behind ∧
      Expression.shuts .outside 0 behind = true := by
  have hshuts : Expression.shuts .outside 0 (rewrite (args ++ [')'])) = true := by
    have hrewrite := shuts_rewrite 0 (args ++ [')']) []
    rw [List.append_nil, List.append_nil, h.shuts] at hrewrite
    exact hrewrite
  refine ⟨rewrite (args ++ [')']), ?_, hshuts⟩
  obtain ⟨init, hlast⟩ := List.getLast?_eq_some_iff.1 (getLast?_of_shuts hshuts)
  obtain ⟨c, name, rfl⟩ := List.exists_cons_of_ne_nil hne
  have hc : Text.isBlank c = false := isBlank_of_isNameChar (hname c List.mem_cons_self)
  have hparen : Text.isBlank ')' = false := by decide
  have hend : c :: name ++ '(' :: (init ++ [')']) = c :: name ++ '(' :: init ++ [')'] := by simp
  rw [translate_eq_trim, rewrite_call hname, hlast, Text.trimWhile, List.cons_append, List.dropWhile_cons, hc,
    if_neg (by simp), ← List.cons_append, hend, Text.dropEndWhile, List.reverse_append, List.reverse_singleton,
    List.singleton_append, List.dropWhile_cons, hparen, if_neg (by simp), List.reverse_cons, List.reverse_reverse]

end

end ViewBridge.Expression
