import ViewBridge.Proofs.Rule
/-!
# Quotes under the rules

A reader of quoted text stands outside literals, inside one, or behind a backslash inside one. No rule of
expressions changes where it stands behind a text, so what opens and closes before a rule does so after it.

Results:
* `run_rewriteIn`, `run_spellLogic`: no rule opens, closes or escapes a quote.
* `readLiteral_of_closes`: where a literal ends.
* `mapUnquoted_cut`: the rules that know literals work on both sides of a literal by themselves.
-/
namespace ViewBridge.Expression

/-! ## Reading quotes -/

/-- Where a reader of quoted text stands. -/
inductive Mode where
  | outside
  | inside (quote : Char)
  | escaped (quote : Char)
deriving DecidableEq, Repr

namespace Mode

/-- One character on. Behind a literal another one opens, or nothing counts any more. -/
def step (reopens : Bool) : Mode → Char → Mode
  | outside, c => if reopens && isQuote c then inside c else outside
  | inside q, c => if c = '\\' then escaped q else if isQuote c && c == q then outside else inside q
  | escaped q, _ => inside q

/-- Where a reader stands behind a text. -/
def run (reopens : Bool) (m : Mode) (s : Chars) : Mode := s.foldl (step reopens) m

/-- Where bare text leads. -/
def settle : Mode → Mode
  | outside => outside
  | inside q => inside q
  | escaped q => inside q

@[simp] theorem run_nil (k : Bool) (m : Mode) : run k m [] = m := rfl

@[simp] theorem run_cons (k : Bool) (m : Mode) (c : Char) (s : Chars) :
    run k m (c :: s) = run k (m.step k c) s := rfl

theorem run_append (k : Bool) (m : Mode) (s t : Chars) : run k m (s ++ t) = run k (run k m s) t :=
  List.foldl_append

theorem step_bare (k : Bool) (m : Mode) {c : Char} (hc : isQuote c = false ∧ c ≠ '\\') :
    m.step k c = m.settle := by
  cases m <;> simp [step, settle, hc]

theorem settle_settle (m : Mode) : m.settle.settle = m.settle := by cases m <;> rfl

theorem run_bare (k : Bool) (m : Mode) {s : Chars} (hs : Bare s) (hne : s ≠ []) :
    run k m s = m.settle := by
  induction s generalizing m with
  | nil => exact absurd rfl hne
  | cons c cs ih =>
    rw [run_cons, step_bare k m (hs c List.mem_cons_self)]
    by_cases hcs : cs = []
    · rw [hcs, run_nil]
    · rw [ih _ (fun d hd => hs d (List.mem_cons_of_mem c hd)) hcs, settle_settle]

theorem run_outside (s : Chars) : run false outside s = outside := by
  induction s with
  | nil => rfl
  | cons c cs ih => exact ih

end Mode

open Mode

/-- A rule that writes what leads a reader of quotes where the text that was read led it. -/
def Preserving (find : Chars → Option (Chars × Chars)) : Prop :=
  ∀ ⦃s out rest⦄, find s = some (out, rest) →
    ∃ used, s = used ++ rest ∧ ∀ k m, run k m used = run k m out

theorem Preserving.run_substitute {find : Chars → Option (Chars × Chars)} (h : Preserving find) (k : Bool)
    (m : Mode) (s : Chars) : run k m (Text.substitute find s) = run k m s := by
  induction hn : s.length using Nat.strongRecOn generalizing s m with
  | ind n ih =>
    cases s with
    | nil => rw [Text.substitute_nil]
    | cons c cs =>
      simp only [List.length_cons] at hn
      have hcopy := ih cs.length (by omega) (m.step k c) cs rfl
      rw [Text.substitute]
      cases hf : find (c :: cs) with
      | none => exact hcopy
      | some r =>
        obtain ⟨out, rest⟩ := r
        simp only
        split
        · obtain ⟨used, hs, hrun⟩ := h hf
          rw [run_append, ih rest.length (by omega) _ rest rfl, hs, run_append, hrun]
        · exact hcopy

theorem Barred.preserving {find : Chars → Option (Chars × Chars)} (h : Barred find) :
    Preserving find := by
  intro s out rest hf
  obtain ⟨used, hs, hused, hout, hbare, hbare'⟩ := h.finds hf
  exact ⟨used, hs, fun k m => by rw [run_bare k m hbare hused, run_bare k m hbare' hout]⟩

theorem bare_name {c : Char} (h : Text.isNameChar c = true) : Bare [c] := fun d hd => by
  rw [List.mem_singleton.1 hd]
  exact isQuote_of_nameChar h

/-- A dot and a name in either spelling of joining. -/
theorem run_join (k : Bool) (m : Mode) {c : Char} (hc : Text.isNameStart c = true) :
    run k m ['.', c] = run k m (" ~ ".toList ++ [c]) := by
  have hname := bare_name (Text.isNameChar_of_isNameStart hc)
  have hdot : Bare ['.', c] := Bare.append (bare_of_all (s := ['.']) (by decide)) hname
  have htilde : Bare (" ~ ".toList ++ [c]) := Bare.append (bare_of_all (by decide)) hname
  rw [run_bare k m hdot (by simp), run_bare k m htilde (by simp)]

theorem preserving_readQuoteDot : Preserving readQuoteDot := by
  intro s out rest hf
  unfold readQuoteDot at hf
  split at hf
  · rename_i q c tail
    split at hf
    · rename_i hc
      simp only [Option.some.injEq, Prod.mk.injEq] at hf
      obtain ⟨rfl, rfl⟩ := hf
      exact ⟨[q, '.', c], rfl, fun k m => run_join k (m.step k q) hc.2⟩
    · cases hf
  · cases hf

theorem bare_joinsDot {c : Char} (h : joinsDot c = true) : Bare [c] := by
  simp only [joinsDot, Bool.or_eq_true, beq_iff_eq] at h
  rcases h with h | rfl
  · exact bare_name h
  · exact bare_of_all (by decide)

theorem preserving_readDotQuoteIn (right : Bool) : Preserving (readDotQuoteIn right) := by
  have hjoin (k : Bool) (m : Mode) {c : Char} (hc : joinsDot c = true) :
      run k m [c, '.'] = run k m (c :: " ~ ".toList) := by
    have hdot : Bare [c, '.'] := (bare_joinsDot hc).append (bare_of_all (s := ['.']) (by decide))
    have htilde : Bare (c :: " ~ ".toList) := (bare_joinsDot hc).append (bare_of_all (by decide))
    rw [run_bare k m hdot (by simp), run_bare k m htilde (by simp)]
  intro s out rest hf
  match s with
  | [] => cases hf
  | [c] => cases hf
  | [c, d] =>
    rw [readDotQuoteIn_pair] at hf
    obtain ⟨⟨rfl, -, hc⟩, hread⟩ := Option.ite_none_right_eq_some.1 hf
    rw [Option.some.injEq, Prod.mk.injEq] at hread
    obtain ⟨rfl, rfl⟩ := hread
    exact ⟨[c, '.'], rfl, fun k m => hjoin k m hc⟩
  | c :: d :: e :: s =>
    rw [readDotQuoteIn_cons] at hf
    obtain ⟨⟨rfl, -, hc⟩, hread⟩ := Option.ite_none_right_eq_some.1 hf
    rw [Option.some.injEq, Prod.mk.injEq] at hread
    obtain ⟨rfl, rfl⟩ := hread
    refine ⟨[c, '.', e], rfl, fun k m => ?_⟩
    rw [show [c, '.', e] = [c, '.'] ++ [e] from rfl, run_append, run_append, hjoin k m hc]

theorem run_quoteDotIn (left k : Bool) (m : Mode) (s : Chars) :
    run k m (quoteDotIn left s) = run k m s := by
  have hplain (m : Mode) (s : Chars) := preserving_readQuoteDot.run_substitute k m s
  unfold quoteDotIn
  cases left with
  | false => exact hplain m s
  | true =>
    rw [if_pos rfl]
    cases hf : readBehind s with
    | none => exact hplain m s
    | some r =>
      obtain ⟨out, rest⟩ := r
      obtain ⟨c, hc, rfl, rfl⟩ := readBehind_eq_some hf
      rw [run_append, hplain, ← run_join k m hc, ← run_append]
      rfl

/-- The rules between bare keys and negation neither open nor close nor escape a quote. -/
theorem run_rewriteIn (left right k : Bool) (m : Mode) (s : Chars) :
    run k m (rewriteIn left right s) = run k m s := by
  have hreplace {old new : String} (hne : old.toList ≠ []) (hnew : new.toList ≠ [])
      (hold : Bare old.toList) (hbare : Bare new.toList) (s : Chars) :
      run k m (Text.replace old.toList new.toList s) = run k m s := by
    rw [Text.replace_eq_substitute _ hne]
    exact (barred_exchange hne hnew hold hbare).preserving.run_substitute k m s
  rw [rewriteIn, dotQuoteIn, (preserving_readDotQuoteIn right).run_substitute, run_quoteDotIn,
    hreplace (by decide) (by decide) (bare_of_all (by decide)) (bare_of_all (by decide)), dotArrows,
    hreplace (by decide) (by decide) (bare_of_all (by decide)) (bare_of_all (by decide)),
    dropSigils_eq, barred_readSigil.preserving.run_substitute]

theorem run_spellLogic (k : Bool) (m : Mode) (s : Chars) : run k m (spellLogic s) = run k m s := by
  rw [spellLogic, barred_readLogicWord.preserving.run_substitute,
    (barred_readSpaced (by decide) (by decide) (bare_of_all (by decide))
      (bare_of_all (by decide))).preserving.run_substitute,
    (barred_readSpaced (by decide) (by decide) (bare_of_all (by decide))
      (bare_of_all (by decide))).preserving.run_substitute]

/-! ## Rules for text outside literals -/

theorem readLiteral_cons {q c : Char} {s : Chars} (hc : c ≠ '\\') (hq : c ≠ q) (hs : s ≠ []) :
    readLiteral q (c :: s) = (c :: (readLiteral q s).1, (readLiteral q s).2) := by
  cases s with
  | nil => exact absurd rfl hs
  | cons d s => rw [readLiteral, if_neg hc, if_neg hq]

/-- A text that leads to no closing quote is in the literal up to the next quote. -/
theorem readLiteral_of_closes {q : Char} (hq : isQuote q = true) {body : Chars}
    (h : run false (.inside q) body = .inside q) (rest : Chars) :
    readLiteral q (body ++ q :: rest) = (body ++ [q], rest) := by
  have hslash : q ≠ '\\' := by rintro rfl; revert hq; decide
  have hclosed (s : Chars) : run false .outside s ≠ .inside q := by
    rw [run_outside]
    exact Mode.noConfusion
  induction hn : body.length using Nat.strongRecOn generalizing body with
  | ind n ih =>
    match body with
    | [] => cases rest <;> simp [readLiteral, hslash]
    | c :: body =>
      simp only [List.length_cons] at hn
      rw [run_cons, step] at h
      by_cases hc : c = '\\'
      · match body with
        | [] => simp [hc] at h
        | d :: body =>
          simp only [List.length_cons] at hn
          have hrest := ih body.length (by omega) (by simpa [hc, step] using h) rfl
          simp only [List.cons_append, readLiteral, hc, ↓reduceIte, hrest]
      · by_cases hcq : c = q
        · rw [if_neg hc, if_pos (by simp [hcq, hq])] at h
          exact absurd h (hclosed body)
        · rw [if_neg hc, if_neg (by simp [hcq])] at h
          have hrest := ih body.length (by omega) h rfl
          rw [List.cons_append, readLiteral_cons hc hcq (by simp), hrest]
          rfl

/-- A text that leads out of a literal has all of the literal in it. -/
theorem readLiteral_append_of_outside {q : Char} (hq : isQuote q = true) {s : Chars}
    (h : run true (.inside q) s = .outside) (t : Chars) :
    readLiteral q (s ++ t) = ((readLiteral q s).1, (readLiteral q s).2 ++ t) ∧
      run true .outside (readLiteral q s).2 = .outside := by
  induction hn : s.length using Nat.strongRecOn generalizing s with
  | ind n ih =>
    match s with
    | [] => cases h
    | [c] =>
      rw [run_cons, run_nil, step] at h
      by_cases hc : c = '\\'
      · rw [if_pos hc] at h; cases h
      · by_cases hcq : c = q
        · subst hcq
          cases t <;> simp [readLiteral, hc]
        · rw [if_neg hc, if_neg (by simp [hcq])] at h; cases h
    | c :: d :: s =>
      simp only [List.length_cons] at hn
      rw [run_cons, step] at h
      by_cases hc : c = '\\'
      · have hrest := ih s.length (by omega) (s := s) (by simpa [hc, step] using h) rfl
        simp only [List.cons_append, readLiteral, hc, ↓reduceIte, hrest]
        exact ⟨trivial, trivial⟩
      · by_cases hcq : c = q
        · subst hcq
          rw [if_neg hc, if_pos (by simp [hq])] at h
          simp only [List.cons_append, readLiteral, hc, ↓reduceIte]
          exact ⟨trivial, h⟩
        · rw [if_neg hc, if_neg (by simp [hcq])] at h
          have hrest := ih (s.length + 1) (by omega) (s := d :: s) h rfl
          rw [List.cons_append, readLiteral_cons hc hcq (by simp), readLiteral_cons hc hcq (by simp),
            hrest.1]
          exact ⟨rfl, hrest.2⟩

theorem mapUnquoted_of_plain {rule : Chars → Chars} {plain : Chars} (h : ∀ c ∈ plain, isQuote c = false)
    {q : Char} (hq : isQuote q = true) (rest : Chars) :
    mapUnquoted rule (plain ++ q :: rest) =
      rule plain ++ q :: (readLiteral q rest).1 ++ mapUnquoted rule (readLiteral q rest).2 := by
  have hq' : (!isQuote q) = false := by rw [hq]; rfl
  have hall : ∀ c ∈ plain, (!isQuote c) = true := fun c hc => by rw [h c hc]; rfl
  have hdrop := Text.dropWhile_append_cons (p := fun c => !isQuote c) hq' plain rest
  rw [Text.dropWhile_eq_nil hall, List.nil_append] at hdrop
  have htake : (plain ++ q :: rest).takeWhile (fun c => !isQuote c) = plain := by
    rw [List.takeWhile_append_of_pos hall, List.takeWhile_cons, hq', if_neg (by simp), List.append_nil]
  rw [mapUnquoted]
  split
  · rename_i hnil
    rw [hdrop] at hnil; cases hnil
  · rename_i q' rest' hcons
    rw [hdrop, List.cons.injEq] at hcons
    obtain ⟨rfl, rfl⟩ := hcons
    rw [htake]

/-- A rule for text outside literals works by itself on a text that leaves no literal open. -/
theorem mapUnquoted_cut (rule : Chars → Chars) {q : Char} (hq : isQuote q = true) {a : Chars}
    (ha : run true .outside a = .outside) (b : Chars) :
    mapUnquoted rule (a ++ q :: b) =
      mapUnquoted rule a ++ q :: (readLiteral q b).1 ++ mapUnquoted rule (readLiteral q b).2 := by
  induction hn : a.length using Nat.strongRecOn generalizing a with
  | ind n ih =>
    have hplain : ∀ c ∈ a.takeWhile (fun c => !isQuote c), isQuote c = false :=
      fun c hc => by simpa using List.mem_takeWhile_imp hc
    have hsplit := List.takeWhile_append_dropWhile (p := fun c => !isQuote c) (l := a)
    cases hd : a.dropWhile (fun c => !isQuote c) with
    | nil =>
      rw [hd, List.append_nil] at hsplit
      rw [hsplit] at hplain
      rw [mapUnquoted_of_plain hplain hq, mapUnquoted_eq_self hplain]
    | cons q' rest =>
      have hq' : isQuote q' = true := by
        have hne : a.dropWhile (fun c => !isQuote c) ≠ [] := by rw [hd]; simp
        simpa [hd] using List.head_dropWhile_not (fun c => !isQuote c) hne
      rw [hd] at hsplit
      generalize a.takeWhile (fun c => !isQuote c) = plain at hplain hsplit
      subst hsplit
      have hout : run true .outside plain = .outside := by
        clear ha ih hn hd
        induction plain with
        | nil => rfl
        | cons c cs ih =>
          rw [run_cons, step, hplain c List.mem_cons_self]
          exact ih fun d hd => hplain d (List.mem_cons_of_mem c hd)
      rw [run_append, hout, run_cons, step, hq', Bool.true_and, if_pos rfl] at ha
      obtain ⟨hread, htail⟩ := readLiteral_append_of_outside hq' ha (q :: b)
      have hlen := readLiteral_length q' rest
      simp only [List.length_append, List.length_cons] at hn
      rw [List.append_assoc, List.cons_append, mapUnquoted_of_plain hplain hq',
        mapUnquoted_of_plain hplain hq', hread, ih _ (by omega) htail rfl]
      simp only [List.append_assoc, List.cons_append]

end ViewBridge.Expression
