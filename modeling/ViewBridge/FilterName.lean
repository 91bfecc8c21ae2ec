import ViewBridge.Dialect
import ViewBridge.Text.Class
import ViewBridge.Text.Substitution
/-!
# Legacy filter names

Values are piped through filters that have other names in the target dialects. An expression is searched for a bar
with a name behind it, from left to right. The name is translated only where it stands alone, in front of the next bar
or at the end; so a chain is translated segment by segment.

Results:
* `translate_append`, `translate_segment`: text without a bar stays, and each segment counts for itself.
* `translate_eq_bySegments`: the search from left to right is the translation of the segments between the bars.
-/
namespace ViewBridge.FilterName

/-- The target filter of each legacy filter; `json_encode` is spelled differently in one dialect. -/
def table : List (String × String) :=
  [("count", "length"), ("sizeof", "length"), ("upper", "upper"), ("lower", "lower"),
    ("capitalize", "capitalize"), ("ucfirst", "capitalize"), ("strtoupper", "upper"),
    ("strtolower", "lower"), ("nl2br", "nl2br"), ("escape", "escape"), ("e", "escape"),
    ("trim", "trim"), ("strip_tags", "striptags"), ("json_encode", "json_encode"),
    ("json", "json_encode"), ("reverse", "reverse"), ("sort", "sort"), ("keys", "keys"),
    ("values", "values"), ("first", "first"), ("last", "last"), ("join", "join"),
    ("split", "split"), ("default", "default"), ("date", "date"), ("abs", "abs"),
    ("round", "round"), ("floor", "floor"), ("ceil", "ceil"), ("number_format", "number_format")]

/-- The filter of a dialect that a legacy filter name stands for. -/
def target? (d : Dialect) (legacy : Chars) : Option Chars :=
  match table.find? fun entry => entry.1.toList == legacy with
  | none => none
  | some (_, found) =>
    if found = "json_encode" ∧ d = .minijinja then some "tojson".toList else some found.toList

/-- A segment between two bars: the target name if it is a legacy filter name, else as it is. -/
def segment (d : Dialect) (s : Chars) : Chars := (target? d s).getD s

/-- Read a bar with a name behind it: the name in the words of a dialect if it stands alone, and what follows it. -/
def readFilter (d : Dialect) : Chars → Option (Chars × Chars)
  | '|' :: cs =>
    if cs.head?.any Text.isNameStart then
      let name := cs.takeWhile Text.isNameChar
      let rest := cs.dropWhile Text.isNameChar
      let alone := rest == [] || rest.head? == some '|'
      some ('|' :: (if alone then segment d name else name), rest)
    else none
  | _ => none

/-- The filter names of a translated expression in the words of a dialect. -/
def translate (d : Dialect) (e : Chars) : Chars := Text.substitute (readFilter d) e

/-! ## Segments -/

variable {d : Dialect} {s rest : Chars}

theorem names_of_mem_table {entry : String × String} (h : entry ∈ table) :
    entry.1.toList.head?.any Text.isNameStart = true ∧ (∀ c ∈ entry.1.toList, Text.isNameChar c = true) ∧
      ∀ c ∈ entry.2.toList, Text.isNameChar c = true := by
  have hnames : table.all (fun entry => entry.1.toList.head?.any Text.isNameStart &&
      (entry.1.toList.all Text.isNameChar && entry.2.toList.all Text.isNameChar)) = true := by
    simp only [table, List.all_cons, String.reduceToList]
    decide +kernel
  have hname := List.all_eq_true.1 hnames entry h
  rwa [Bool.and_eq_true, Bool.and_eq_true, List.all_eq_true, List.all_eq_true] at hname

/-- A text that is no name is no filter. -/
theorem segment_eq_self (h : ¬ (s.head?.any Text.isNameStart = true ∧ ∀ c ∈ s, Text.isNameChar c = true)) :
    segment d s = s := by
  have hnone : table.find? (fun entry => entry.1.toList == s) = none := by
    refine List.find?_eq_none.2 fun entry hentry hs => h ?_
    obtain ⟨hstart, hname, -⟩ := names_of_mem_table hentry
    exact eq_of_beq hs ▸ ⟨hstart, hname⟩
  rw [segment, target?, hnone]
  rfl

@[simp] theorem translate_nil : translate d [] = [] := Text.substitute_nil _

theorem readFilter_of_ne {c : Char} (hc : c ≠ '|') (cs : Chars) : readFilter d (c :: cs) = none := by
  unfold readFilter
  split
  · rename_i heq
    exact absurd (List.cons.inj heq).1 hc
  · rfl

/-- Text without a bar stays. -/
theorem translate_append (h : '|' ∉ s) (rest : Chars) : translate d (s ++ rest) = s ++ translate d rest := by
  induction s with
  | nil => rfl
  | cons c s ih =>
    rw [List.mem_cons, not_or] at h
    rw [List.cons_append, translate, Text.substitute_cons_of_none (readFilter_of_ne (Ne.symm h.1) _)]
    exact congrArg (c :: ·) (ih h.2)

/-- A name that is followed by something else is read up to there. -/
theorem readFilter_append {name : Chars} (hstart : name.head?.any Text.isNameStart = true)
    (hname : ∀ c ∈ name, Text.isNameChar c = true) (hrest : ∀ c, rest.head? = some c → Text.isNameChar c = false) :
    readFilter d ('|' :: (name ++ rest)) =
      some ('|' :: (if rest == [] || rest.head? == some '|' then segment d name else name), rest) := by
  have hhead : (name ++ rest).head?.any Text.isNameStart = true := by
    cases name with
    | nil => cases hstart
    | cons c cs => exact hstart
  have hstop : rest.takeWhile Text.isNameChar = [] ∧ rest.dropWhile Text.isNameChar = rest := by
    cases rest with
    | nil => exact ⟨rfl, rfl⟩
    | cons c cs => simp [hrest c rfl]
  rw [readFilter, if_pos hhead, List.takeWhile_append_of_pos hname, List.dropWhile_append_of_pos hname, hstop.1,
    hstop.2, List.append_nil]

/-- What is read behind a bar is written in front of the translation of what follows. -/
theorem translate_of_readFilter {cs out : Chars} (h : readFilter d ('|' :: cs) = some (out, rest)) :
    translate d ('|' :: cs) = out ++ translate d rest := by
  refine Text.substitute_of_some h ?_
  have hrest : rest = cs.dropWhile Text.isNameChar := by
    unfold readFilter at h
    split at h
    · rename_i heq
      rw [(List.cons.inj heq).2]
      split at h
      · exact (Prod.mk.inj (Option.some.inj h)).2.symm
      · cases h
    · cases h
  rw [hrest, List.length_cons]
  exact Nat.lt_succ_of_le (List.dropWhile_suffix _).length_le

/-- A segment up to the next bar or the end is translated for itself. -/
theorem translate_segment (h : '|' ∉ s) (hrest : rest = [] ∨ rest.head? = some '|') :
    translate d ('|' :: (s ++ rest)) = '|' :: (segment d s ++ translate d rest) := by
  have hbar : ∀ c, rest.head? = some c → Text.isNameChar c = false := by
    rintro c hc
    obtain rfl | hrest := hrest
    · cases hc
    · obtain rfl := Option.some.inj (hrest.symm.trans hc)
      rfl
  by_cases hs : s.head?.any Text.isNameStart = true ∧ ∀ c ∈ s, Text.isNameChar c = true
  · -- the segment is a name and stands alone
    have halone : (rest == [] || rest.head? == some '|') = true := by
      rcases hrest with rfl | hrest
      · rfl
      · simp [hrest]
    have hread := readFilter_append (d := d) hs.1 hs.2 hbar
    rw [halone, if_pos rfl] at hread
    exact translate_of_readFilter hread
  · rw [segment_eq_self hs]
    by_cases hstart : s.head?.any Text.isNameStart = true
    · -- a name is only the front of the segment
      have hother : ∃ c, s.find? (fun c => !Text.isNameChar c) = some c := by
        rw [← Option.isSome_iff_exists, List.find?_isSome]
        simpa [hstart] using hs
      obtain ⟨c, hc⟩ := hother
      obtain ⟨hstop, name, cs, rfl, hname⟩ := List.find?_eq_some_iff_append.1 hc
      rw [Bool.not_eq_true'] at hstop
      have hhead : name.head?.any Text.isNameStart = true := by
        cases name with
        | nil => exact absurd (Text.isNameChar_of_isNameStart hstart) (by simp [hstop])
        | cons a as => exact hstart
      have hread : readFilter d ('|' :: (name ++ c :: (cs ++ rest))) = _ :=
        readFilter_append hhead (by simpa using hname) (by simp [hstop])
      have hbar : c ≠ '|' := fun hbar => h (by simp [hbar])
      rw [if_neg (by simp [hbar])] at hread
      rw [List.append_assoc, List.cons_append, translate_of_readFilter hread, ← List.cons_append,
        translate_append (fun hmem => h (List.mem_append_right name hmem))]
      simp
    · have hnone : readFilter d ('|' :: (s ++ rest)) = none := by
        rw [readFilter, if_neg]
        cases s with
        | nil =>
          rcases hrest with rfl | hrest
          · simp
          · simp [hrest, show Text.isNameStart '|' = false from rfl]
        | cons c cs => exact hstart
      rw [translate, Text.substitute_cons_of_none hnone]
      exact congrArg ('|' :: ·) (translate_append h rest)

theorem join_bars (value : Chars) (filters : List Chars) :
    Text.join ['|'] (value :: filters) = value ++ filters.flatMap ('|' :: ·) := by
  induction filters generalizing value with
  | nil => exact (List.append_nil value).symm
  | cons s filters ih =>
    rw [Text.join_cons _ _ (List.cons_ne_nil s filters), ih, List.flatMap_cons, List.append_assoc]
    rfl

/-- A chain is translated segment by segment. -/
theorem translate_join (d : Dialect) {value : Chars} {filters : List Chars} (h : ∀ s ∈ value :: filters, '|' ∉ s) :
    translate d (Text.join ['|'] (value :: filters)) = Text.join ['|'] (value :: filters.map (segment d)) := by
  rw [List.forall_mem_cons] at h
  rw [join_bars, join_bars, translate_append h.1]
  congr 1
  replace h := h.2
  induction filters with
  | nil => exact translate_nil
  | cons s filters ih =>
    rw [List.forall_mem_cons] at h
    have hrest : filters.flatMap ('|' :: ·) = [] ∨ (filters.flatMap ('|' :: ·)).head? = some '|' := by
      cases filters with
      | nil => exact .inl rfl
      | cons s' filters => exact .inr rfl
    rw [List.flatMap_cons, List.cons_append, translate_segment h.1 hrest, ih h.2, List.map_cons, List.flatMap_cons,
      List.cons_append]

/-- The translation of an expression that is split at the bars. -/
def bySegments (d : Dialect) (e : Chars) : Chars :=
  match Text.splitOn ['|'] e with
  | [] => []
  | value :: filters => Text.join ['|'] (value :: filters.map (segment d))

/-- The search from left to right is the translation of the segments between the bars. -/
theorem translate_eq_bySegments (d : Dialect) (e : Chars) : translate d e = bySegments d e := by
  have hjoin := Text.join_splitOn ['|'] e
  have hparts : ∀ s ∈ Text.splitOn ['|'] e, '|' ∉ s := fun s hs => Text.not_mem_of_mem_splitOn hs
  unfold bySegments
  cases hsplit : Text.splitOn ['|'] e with
  | nil => exact absurd hsplit (Text.splitOn_ne_nil _ _)
  | cons value filters =>
    rw [hsplit] at hjoin hparts
    rw [← hjoin, translate_join d hparts]

end ViewBridge.FilterName
