import Mathlib.Data.List.Basic
import Mathlib.Data.List.TakeWhile
import ViewBridge.Text.Substitution
/-!
# Passes over joined texts

A pass of the translator walks over the whole text. These are the facts that let a text be taken apart
where the pass comes to rest: a stretch in which nothing is recognised is copied, a pass rests at a seam
that nothing is read over, and replacing a fixed text is a pass like any other.

Results:
* `reader_induction`: induction over a text by what is read in it.
* `substituteFrom_append_of_none`: the copied stretch.
* `substituteFrom_invariant`: a property of the state that lasts through a pass.
* `find_eq_none_of_count`: a pass that uses up a character and leaves all of it has found nothing.
* `substituteFrom_append`: two texts are passed over one after the other if no reading goes over the seam.
* `replace_eq_substitute`: replacing is substituting.
-/
namespace ViewBridge.Text

/-! ## Spans over a seam -/

theorem dropWhile_append_of_ne_nil {p : Char → Bool} {s : Chars} (h : s.dropWhile p ≠ []) (t : Chars) :
    (s ++ t).dropWhile p = s.dropWhile p ++ t := by
  rw [List.dropWhile_append, if_neg (by simpa using h)]

theorem takeWhile_append_of_ne_nil {p : Char → Bool} {s : Chars} (h : s.dropWhile p ≠ []) (t : Chars) :
    (s ++ t).takeWhile p = s.takeWhile p := by
  rw [List.takeWhile_append, if_neg]
  intro hlen
  have hall := (List.takeWhile_prefix p (l := s)).eq_of_length hlen
  exact h (List.dropWhile_eq_nil_iff.2 (List.takeWhile_eq_self_iff.1 hall))

theorem dropWhile_append_cons {p : Char → Bool} {q : Char} (h : p q = false) (s t : Chars) :
    (s ++ q :: t).dropWhile p = s.dropWhile p ++ q :: t := by
  induction s with
  | nil => simp [h]
  | cons c cs ih => simp only [List.cons_append, List.dropWhile_cons, ih]; split <;> rfl

theorem takeWhile_append_cons {p : Char → Bool} {q : Char} (h : p q = false) (s t : Chars) :
    (s ++ q :: t).takeWhile p = s.takeWhile p := by
  induction s with
  | nil => simp [h]
  | cons c cs ih => simp only [List.cons_append, List.takeWhile_cons, ih]

theorem after?_append_cons {lead : Chars} {q : Char} (h : q ∉ lead) (s t : Chars) :
    after? lead (s ++ q :: t) = (after? lead s).map (· ++ q :: t) := by
  induction lead generalizing s with
  | nil => rfl
  | cons p ps ih =>
    simp only [List.mem_cons, not_or] at h
    cases s with
    | nil => simp [after?, Ne.symm h.1]
    | cons c cs => simp only [List.cons_append, after?, ih h.2]; split <;> rfl

/-! ## Induction along a reader -/

/-- What is read is taken off a text as a whole, and where nothing is read one character is. -/
theorem reader_induction {α : Type} {find : Chars → Option (α × Chars)}
    (hlength : ∀ {s a rest}, find s = some (a, rest) → rest.length < s.length) {motive : Chars → Prop}
    (nil : motive []) (none : ∀ c s, find (c :: s) = none → motive s → motive (c :: s))
    (some : ∀ s a rest, find s = some (a, rest) → motive rest → motive s) (s : Chars) : motive s := by
  induction hn : s.length using Nat.strongRecOn generalizing s with
  | ind n ih =>
    cases s with
    | nil => exact nil
    | cons c cs =>
      cases hread : find (c :: cs) with
      | none => exact none c cs hread (ih cs.length (by rw [← hn, List.length_cons]; omega) cs rfl)
      | some found =>
        exact some _ found.1 found.2 hread (ih found.2.length (by rw [← hn]; exact hlength hread) found.2 rfl)

/-! ## Replacing as a pass -/

/-- What a fixed text becomes where it stands at the start. -/
def exchange (old new s : Chars) : Option (Chars × Chars) :=
  (after? old s).map fun rest => (new, rest)

/-- A recogniser without a state, as one that carries nothing. -/
def stateless (find : Chars → Option (Chars × Chars)) (_ : Unit) (s : Chars) :
    Option (Chars × Unit × Chars) :=
  (find s).map fun (out, rest) => (out, (), rest)

theorem substitute_eq_substituteFrom (find : Chars → Option (Chars × Chars)) (s : Chars) :
    substitute find s = (substituteFrom (stateless find) () s).1 := by
  induction hn : s.length using Nat.strongRecOn generalizing s with
  | ind n ih =>
    cases s with
    | nil => simp
    | cons c cs =>
      simp only [List.length_cons] at hn
      rw [substitute, substituteFrom, stateless]
      cases find (c :: cs) with
      | none => simp [ih cs.length (by omega) cs rfl]
      | some r =>
        obtain ⟨out, rest⟩ := r
        simp only [Option.map_some]
        split
        · simp [ih rest.length (by omega) rest rfl]
        · simp [ih cs.length (by omega) cs rfl]

theorem replace_eq_substitute {old : Chars} (new : Chars) (h : old ≠ []) (s : Chars) :
    replace old new s = substitute (exchange old new) s := by
  induction hn : s.length using Nat.strongRecOn generalizing s with
  | ind n ih =>
    cases s with
    | nil =>
      rw [replace, dif_neg h, substitute_nil]
      split
      · rfl
      · rename_i pre rest hs
        simp [cut?, h] at hs
    | cons c cs =>
      simp only [List.length_cons] at hn
      have hcs := ih cs.length (by omega) cs rfl
      cases ha : after? old (c :: cs) with
      | some rest =>
        have hl := congrArg List.length (after?_eq_some_iff.1 ha)
        have hold := List.length_pos_iff.2 h
        simp only [List.length_append, List.length_cons] at hl
        have hex : exchange old new (c :: cs) = some (new, rest) := by simp [exchange, ha]
        rw [substitute_of_some hex (by simp only [List.length_cons]; omega), replace, dif_neg h]
        have hcut : cut? old (c :: cs) = some ([], rest) := by simp [cut?, ha]
        split
        · simp_all
        · rename_i pre rest' hs
          rw [hcut, Option.some.injEq, Prod.mk.injEq] at hs
          obtain ⟨rfl, rfl⟩ := hs
          rw [List.nil_append, ih rest.length (by omega) rest rfl]
      | none =>
        have hex : exchange old new (c :: cs) = none := by simp [exchange, ha]
        rw [substitute_cons_of_none hex, ← hcs, replace, replace, dif_neg h, dif_neg h]
        have hcut : cut? old (c :: cs) = (cut? old cs).map fun (pre, rest) => (c :: pre, rest) := by
          simp [cut?, ha]
        split <;> split <;> simp_all

/-! ## Seams -/

section
variable {σ : Type} {find : σ → Chars → Option (Chars × σ × Chars)}

/-- A stretch in which nothing is recognised is copied. -/
theorem substituteFrom_append_of_none {st : σ} {t s : Chars}
    (h : ∀ v, v ≠ [] → v <:+ t → find st (v ++ s) = none) :
    substituteFrom find st (t ++ s) =
      (t ++ (substituteFrom find st s).1, (substituteFrom find st s).2) := by
  induction t with
  | nil => rfl
  | cons c cs ih =>
    have hhead := h (c :: cs) (by simp) (List.suffix_refl _)
    rw [List.cons_append] at hhead ⊢
    rw [substituteFrom_cons_of_none hhead,
      ih fun v hv hs => h v hv (hs.trans (List.suffix_cons c cs))]
    rfl

/-- A pass rests at a seam that no reading from in front of it goes over. -/
theorem substituteFrom_append {s t : Chars}
    (hrest : ∀ {st v out st' rest}, find st v = some (out, st', rest) → rest <:+ v)
    (hseam : ∀ st v, v ≠ [] → v <:+ s →
      find st (v ++ t) = (find st v).map fun (out, st', rest) => (out, st', rest ++ t)) (st : σ) :
    substituteFrom find st (s ++ t) =
      ((substituteFrom find st s).1 ++ (substituteFrom find (substituteFrom find st s).2 t).1,
        (substituteFrom find (substituteFrom find st s).2 t).2) := by
  induction hn : s.length using Nat.strongRecOn generalizing s st with
  | ind n ih =>
    cases s with
    | nil => simp
    | cons c cs =>
      simp only [List.length_cons] at hn
      have hread := hseam st (c :: cs) (by simp) (List.suffix_refl _)
      have hcopy := ih cs.length (by omega) (s := cs)
        (fun st v hv hs => hseam st v hv (hs.trans (List.suffix_cons c cs))) st rfl
      rw [List.cons_append] at hread ⊢
      rw [substituteFrom, substituteFrom, hread]
      cases hf : find st (c :: cs) with
      | none => simp [hcopy]
      | some r =>
        obtain ⟨out, st', rest⟩ := r
        have hlen : (rest ++ t).length ≤ (cs ++ t).length ↔ rest.length ≤ cs.length := by
          simp only [List.length_append]; omega
        simp only [Option.map_some, hlen]
        split
        · have hgo := ih rest.length (by omega) (s := rest)
            (fun st v hv hs => hseam st v hv (hs.trans (hrest hf))) st' rfl
          simp [hgo]
        · simp [hcopy]

end

/-- What every recognised directive keeps true of the state, a pass keeps true of it. -/
theorem substituteFrom_invariant {σ : Type} {find : σ → Chars → Option (Chars × σ × Chars)}
    {P : σ → Prop} (h : ∀ {st v out st' rest}, find st v = some (out, st', rest) → P st → P st')
    {st : σ} (hst : P st) (s : Chars) : P (substituteFrom find st s).2 := by
  induction hn : s.length using Nat.strongRecOn generalizing s st with
  | ind n ih =>
    cases s with
    | nil => simpa using hst
    | cons c cs =>
      simp only [List.length_cons] at hn
      rw [substituteFrom]
      cases hf : find st (c :: cs) with
      | none => exact ih cs.length (by omega) hst cs rfl
      | some r =>
        obtain ⟨out, st', rest⟩ := r
        simp only
        split
        · exact ih rest.length (by omega) (h hf hst) rest rfl
        · exact ih cs.length (by omega) hst cs rfl

/-! ## Counting -/

section
variable {σ : Type} {find : σ → Chars → Option (Chars × σ × Chars)} {x : Char}

/-- A pass that writes no more of a character than it reads leaves no more of it. -/
theorem count_substituteFrom_le
    (h : ∀ {st s out st' rest}, find st s = some (out, st', rest) →
      ∃ used, s = used ++ rest ∧ out.count x ≤ used.count x) (st : σ) (s : Chars) :
    (substituteFrom find st s).1.count x ≤ s.count x := by
  induction hn : s.length using Nat.strongRecOn generalizing s st with
  | ind n ih =>
    cases s with
    | nil => simp
    | cons c cs =>
      simp only [List.length_cons] at hn
      have hcopy : (c :: (substituteFrom find st cs).1).count x ≤ (c :: cs).count x := by
        simp only [List.count_cons]
        have := ih cs.length (by omega) st cs rfl
        omega
      rw [substituteFrom]
      cases hf : find st (c :: cs) with
      | none => exact hcopy
      | some r =>
        obtain ⟨out, st', rest⟩ := r
        simp only
        split
        · obtain ⟨used, hs, hle⟩ := h hf
          have := ih rest.length (by omega) st' rest rfl
          rw [hs, List.count_append, List.count_append]
          omega
        · exact hcopy

/-- A pass that uses up a character and leaves all of it has found nothing. -/
theorem find_eq_none_of_count
    (h : ∀ {st s out st' rest}, find st s = some (out, st', rest) →
      ∃ used, s = used ++ rest ∧ out.count x < used.count x) {st : σ} {s : Chars}
    (hs : (substituteFrom find st s).1.count x = s.count x) {t : Chars} (ht : t <:+ s) :
    find st t = none := by
  induction s with
  | nil =>
    rw [List.suffix_nil.1 ht]
    cases hf : find st [] with
    | none => rfl
    | some r =>
      obtain ⟨used, hused, hlt⟩ := h (show find st [] = some (r.1, r.2.1, r.2.2) from hf)
      rw [(List.append_eq_nil_iff.1 hused.symm).1] at hlt
      simp at hlt
  | cons c cs ih =>
    cases hf : find st (c :: cs) with
    | none =>
      rw [substituteFrom_cons_of_none hf, List.count_cons, List.count_cons] at hs
      rcases List.suffix_cons_iff.1 ht with rfl | ht
      · exact hf
      · exact ih (by omega) ht
    | some r =>
      obtain ⟨out, st', rest⟩ := r
      obtain ⟨used, hused, hlt⟩ := h hf
      have hne : used ≠ [] := by
        rintro rfl
        simp at hlt
      have hlen := congrArg List.length hused
      have hpos := List.length_pos_iff.2 hne
      rw [List.length_append] at hlen
      rw [substituteFrom_of_some hf (by omega), List.count_append, hused, List.count_append] at hs
      have hle : (substituteFrom find st' rest).1.count x ≤ rest.count x :=
        count_substituteFrom_le (fun hf => (h hf).imp fun _ hu => ⟨hu.1, hu.2.le⟩) st' rest
      omega

end

/-! ## Passes without a state -/

theorem stateless_eq_some {find : Chars → Option (Chars × Chars)} {st st' : Unit} {s out rest : Chars}
    (h : stateless find st s = some (out, st', rest)) : find s = some (out, rest) := by
  obtain ⟨r, hr, he⟩ := Option.map_eq_some_iff.1 h
  simp only [Prod.mk.injEq] at he
  rw [hr, ← he.1, ← he.2.2]

theorem exchange_eq_some {old new s out rest : Chars} (h : exchange old new s = some (out, rest)) :
    out = new ∧ s = old ++ rest := by
  obtain ⟨r, hr, he⟩ := Option.map_eq_some_iff.1 h
  rw [Prod.mk.injEq] at he
  exact ⟨he.1.symm, by rw [Text.after?_eq_some_iff.1 hr, he.2]⟩

theorem count_replace_le {old new : Chars} (hold : old ≠ []) {x : Char} (h : new.count x ≤ old.count x)
    (s : Chars) : (replace old new s).count x ≤ s.count x := by
  rw [replace_eq_substitute _ hold, substitute_eq_substituteFrom]
  refine count_substituteFrom_le (fun hf => ?_) () s
  obtain ⟨rfl, hs⟩ := exchange_eq_some (stateless_eq_some hf)
  exact ⟨old, hs, h⟩

theorem substitute_append_of_none {find : Chars → Option (Chars × Chars)} {t s : Chars}
    (h : ∀ v, v ≠ [] → v <:+ t → find (v ++ s) = none) :
    substitute find (t ++ s) = t ++ substitute find s := by
  rw [substitute_eq_substituteFrom, substitute_eq_substituteFrom find s,
    substituteFrom_append_of_none fun v hv hs => by simp [stateless, h v hv hs]]

theorem substitute_append {find : Chars → Option (Chars × Chars)} {s t : Chars}
    (hrest : ∀ {v out rest}, find v = some (out, rest) → rest <:+ v)
    (hseam : ∀ v, v ≠ [] → v <:+ s →
      find (v ++ t) = (find v).map fun (out, rest) => (out, rest ++ t)) :
    substitute find (s ++ t) = substitute find s ++ substitute find t := by
  simp only [substitute_eq_substituteFrom]
  rw [substituteFrom_append]
  · exact fun hf => hrest (stateless_eq_some hf)
  · intro _ v hv hs
    simp [stateless, hseam v hv hs, Function.comp_def]

end ViewBridge.Text
