import ViewBridge.Proofs.Pass
/-!
# Words in a text

A word is a text that occurs in another one. Where a pass writes nothing that could complete the word, the
word occurs behind the pass only if it occurred in front of it; where a pass reads the word as a whole or not
at all, and writes it again, the word is still there behind the pass.

Results:
* `infix_append_cons`: a word does not lie over a character that it does not have.
* `cut?_append_self`, `cut?_eq_some_iff_of_last`: a text is cut at the first separator behind it.
* `infix_of_infix_substituteFrom`: a pass that makes no new occurrence of a word.
* `infix_substituteFrom`: a pass that loses no occurrence of a word.
-/
namespace ViewBridge.Text

/-! ## Words over a seam -/

theorem prefix_of_prefix_append_cons {w s t : Chars} {c : Char} (hc : c ∉ w) (h : w <+: s ++ c :: t) :
    w <+: s := by
  induction s generalizing w with
  | nil =>
    cases w with
    | nil => exact List.nil_prefix
    | cons d ds =>
      rw [List.nil_append, List.cons_prefix_cons] at h
      exact absurd (h.1 ▸ List.mem_cons_self) hc
  | cons d ds ih =>
    cases w with
    | nil => exact List.nil_prefix
    | cons e es =>
      rw [List.cons_append, List.cons_prefix_cons] at h
      exact List.cons_prefix_cons.2 ⟨h.1, ih (fun hm => hc (List.mem_cons_of_mem e hm)) h.2⟩

/-- A word lies in front of a character that it does not have, or behind it. -/
theorem infix_append_cons {w s t : Chars} {c : Char} (hc : c ∉ w) (h : w <:+: s ++ c :: t) :
    w <:+: s ∨ w <:+: t := by
  induction s with
  | nil =>
    rcases List.infix_cons_iff.1 h with h | h
    · exact .inl (prefix_of_prefix_append_cons hc h).isInfix
    · exact .inr h
  | cons d ds ih =>
    rw [List.cons_append] at h
    rcases List.infix_cons_iff.1 h with h | h
    · exact .inl (prefix_of_prefix_append_cons (s := d :: ds) hc h).isInfix
    · exact (ih h).imp_left List.infix_cons

/-- A word does not start in a text that does not have its first character. -/
theorem infix_of_infix_append {a : Char} {w s t : Chars} (ha : a ∉ s) (h : a :: w <:+: s ++ t) :
    a :: w <:+: t := by
  induction s with
  | nil => exact h
  | cons c cs ih =>
    rw [List.mem_cons, not_or] at ha
    rw [List.cons_append] at h
    rcases List.infix_cons_iff.1 h with h | h
    · exact absurd (List.cons_prefix_cons.1 h).1 ha.1
    · exact ih ha.2 h

/-- A word does not end in a text that does not have its last character. -/
theorem concat_infix_of_infix_append {a : Char} {w s t : Chars} (ha : a ∉ t) (h : w ++ [a] <:+: s ++ t) :
    w ++ [a] <:+: s := by
  rw [← List.reverse_infix, List.reverse_append, List.reverse_singleton, List.singleton_append] at h ⊢
  rw [List.reverse_append] at h
  exact infix_of_infix_append (by simpa using ha) h

/-- The end of a joined text is an end of the second text, or has all of it. -/
theorem suffix_append_cases {v s t : Chars} (h : v <:+ s ++ t) :
    v <:+ t ∨ ∃ u, u ≠ [] ∧ u <:+ s ∧ v = u ++ t := by
  obtain ⟨a, ha⟩ := h
  rcases List.append_eq_append_iff.1 ha with ⟨u, rfl, rfl⟩ | ⟨u, rfl, rfl⟩
  · by_cases hu : u = []
    · exact .inl (by simp [hu])
    · exact .inr ⟨u, hu, List.suffix_append _ _, rfl⟩
  · exact .inl (List.suffix_append _ _)

/-! ## Cutting at a word -/

theorem after?_isSome_iff (lead s : Chars) : (after? lead s).isSome ↔ lead <+: s := by
  rw [Option.isSome_iff_exists]
  exact ⟨fun ⟨r, h⟩ => ⟨r, (after?_eq_some_iff.1 h).symm⟩, fun ⟨r, h⟩ => ⟨r, after?_eq_some_iff.2 h.symm⟩⟩

theorem after?_eq_none_iff (lead s : Chars) : after? lead s = none ↔ ¬ lead <+: s := by
  rw [← after?_isSome_iff, Option.not_isSome_iff_eq_none]

theorem cut?_eq_none_iff {sep : Chars} (hsep : sep ≠ []) (s : Chars) :
    cut? sep s = none ↔ ¬ sep <:+: s := by
  induction s with
  | nil => simp [cut?, hsep]
  | cons c cs ih =>
    rw [cut?, List.infix_cons_iff, not_or, ← ih, ← after?_eq_none_iff]
    cases after? sep (c :: cs) with
    | none => simp
    | some r => simp

/-- What precedes the first occurrence of a separator has no occurrence in it. -/
theorem not_infix_of_cut? {sep s pre rest : Chars} (hsep : sep ≠ []) (h : cut? sep s = some (pre, rest)) :
    ¬ sep <:+: pre := by
  induction s generalizing pre rest with
  | nil => simp [cut?, hsep] at h
  | cons c cs ih =>
    rw [cut?] at h
    split at h
    · obtain ⟨rfl, -⟩ := Prod.mk.inj (Option.some.inj h)
      exact fun hin => hsep (List.infix_nil.1 hin)
    · rename_i hnone
      obtain ⟨⟨pre', rest'⟩, hcut, heq⟩ := Option.map_eq_some_iff.1 h
      obtain ⟨rfl, -⟩ := Prod.mk.inj heq
      rw [List.infix_cons_iff, not_or]
      refine ⟨fun hstart => ?_, ih hcut⟩
      -- an occurrence at the start would have been the first one
      have hpre : pre' <+: cs := ⟨sep ++ rest', by rw [cut?_eq_some hcut, List.append_assoc]⟩
      exact (after?_eq_none_iff sep (c :: cs)).1 hnone (hstart.trans (List.cons_prefix_cons.2 ⟨rfl, hpre⟩))

theorem cut?_self_append {sep : Chars} (hsep : sep ≠ []) (rest : Chars) : cut? sep (sep ++ rest) = some ([], rest) := by
  obtain ⟨c, cs, rfl⟩ := List.exists_cons_of_ne_nil hsep
  rw [List.cons_append, cut?, ← List.cons_append, after?_append]

/-- A text is cut at a separator that does not occur in front of it, if the separator has its last character only
there: no other occurrence can go on into this one. -/
theorem cut?_eq_some_iff_of_last {w : Chars} {a : Char} (ha : a ∉ w) {s pre rest : Chars} :
    cut? (w ++ [a]) s = some (pre, rest) ↔ s = pre ++ (w ++ [a]) ++ rest ∧ ¬ w ++ [a] <:+: pre := by
  have hne : w ++ [a] ≠ [] := List.concat_ne_nil a w
  refine ⟨fun h => ⟨cut?_eq_some h, not_infix_of_cut? hne h⟩, ?_⟩
  rintro ⟨rfl, hpre⟩
  induction pre with
  | nil => exact cut?_self_append hne rest
  | cons d ds ih =>
    have hds : ¬ w ++ [a] <:+: ds := fun hin => hpre (List.infix_cons hin)
    have hnone : after? (w ++ [a]) (d :: (ds ++ (w ++ [a]) ++ rest)) = none := by
      rw [after?_eq_none_iff]
      intro hstart
      have hwhole : (d :: ds) ++ w <+: d :: (ds ++ (w ++ [a]) ++ rest) := ⟨[a] ++ rest, by simp⟩
      have hin := (List.prefix_of_prefix_length_le hstart hwhole (by simp)).isInfix
      exact hpre (concat_infix_of_infix_append ha hin)
    rw [List.cons_append, List.cons_append, cut?, hnone, ih hds]
    rfl

/-- A separator whose first character does not come again is found directly behind a text without it. -/
theorem cut?_append_self {c : Char} {cs s : Chars} (hc : c ∉ cs) (hs : ¬ c :: cs <:+: s) (t : Chars) :
    cut? (c :: cs) (s ++ (c :: cs ++ t)) = some (s, t) := by
  induction s with
  | nil => rw [List.nil_append, List.cons_append, cut?, ← List.cons_append, after?_append]
  | cons d ds ih =>
    rw [List.infix_cons_iff, not_or] at hs
    have hnone : after? (c :: cs) (d :: (ds ++ (c :: cs ++ t))) = none := by
      rw [after?_eq_none_iff]
      intro h
      rw [List.cons_prefix_cons] at h
      -- the rest of the separator cannot reach the next one
      have := prefix_of_prefix_append_cons hc h.2
      exact hs.1 (List.cons_prefix_cons.2 ⟨h.1, this⟩)
    rw [List.cons_append, cut?, hnone]
    simp only [ih hs.2, Option.map_some]

theorem after?_append_cons_of_tail {a c : Char} {as s : Chars} (hc : c ∉ as) (hs : s ≠ []) (t : Chars) :
    after? (a :: as) (s ++ c :: t) = (after? (a :: as) s).map (· ++ c :: t) := by
  obtain ⟨d, ds, rfl⟩ := List.exists_cons_of_ne_nil hs
  simp only [List.cons_append, after?]
  split
  · exact after?_append_cons hc ds t
  · rfl

/-- No cut goes over a text that does not have the separator and does not start inside it. -/
theorem cut?_append_cons {a c : Char} {as t : Chars} (hc : c ∉ as) (ht : ¬ a :: as <:+: c :: t) (s : Chars) :
    cut? (a :: as) (s ++ c :: t) = (cut? (a :: as) s).map fun (pre, rest) => (pre, rest ++ c :: t) := by
  induction s with
  | nil => rw [List.nil_append, (cut?_eq_none_iff (List.cons_ne_nil a as) _).2 ht]; rfl
  | cons d ds ih =>
    have hread := after?_append_cons_of_tail (a := a) hc (List.cons_ne_nil d ds) t
    rw [List.cons_append] at hread ⊢
    rw [cut?, cut?, hread, ih]
    cases after? (a :: as) (d :: ds) with
    | some r => rfl
    | none => cases cut? (a :: as) ds <;> rfl

/-- A word that has its last character only there does not lie over a seam behind this character. -/
theorem exists_append_of_append_eq {w x t u rest : Chars} {a : Char} (ha : a ∉ w) (hx : x.getLast? = some a)
    (hno : ¬ w ++ [a] <:+: x) (h : x ++ t = u ++ (w ++ [a]) ++ rest) :
    ∃ y, u = x ++ y ∧ t = y ++ (w ++ [a]) ++ rest := by
  rw [List.append_assoc] at h
  rcases List.append_eq_append_iff.1 h with ⟨y, rfl, rfl⟩ | ⟨v, rfl, hv⟩
  · exact ⟨y, rfl, (List.append_assoc ..).symm⟩
  rcases eq_or_ne v [] with rfl | hne
  · exact ⟨[], by simp, by simpa using hv.symm⟩
  rw [List.getLast?_append_of_ne_nil _ hne] at hx
  rcases List.append_eq_append_iff.1 hv with ⟨y, rfl, -⟩ | ⟨y, hw, -⟩
  · exact absurd ⟨u, y, List.append_assoc ..⟩ hno
  · -- the word would end in front of its last character, or with it
    rcases eq_or_ne y [] with rfl | hy
    · rw [List.append_nil] at hw
      exact absurd ⟨u, [], by rw [← hw, List.append_nil]⟩ hno
    · rw [← List.dropLast_append_getLast hy, ← List.append_assoc] at hw
      rw [(List.append_inj' hw rfl).1] at ha
      exact absurd (List.mem_append_left _ (List.mem_of_getLast? hx)) ha

/-! ## Words under a pass -/

section
variable {σ : Type} {find : σ → Chars → Option (Chars × σ × Chars)} {w : Chars}

/-- A pass that writes nothing a word goes on with makes no new start of the word's rest. -/
theorem prefix_of_prefix_substituteFrom
    (h : ∀ {st s out st' rest}, find st s = some (out, st', rest) →
      ∀ p t, p ≠ [] → p <:+ w → p ≠ w → ¬ p <+: out ++ t)
    {p : Chars} (hp : p <:+ w) (hpw : p ≠ w) {st : σ} {s : Chars}
    (hs : p <+: (substituteFrom find st s).1) : p <+: s := by
  induction s generalizing p st with
  | nil => simpa using hs
  | cons c cs ih =>
    by_cases hnil : p = []
    · rw [hnil]; exact List.nil_prefix
    · have hcopy (st : σ) (hs : p <+: c :: (substituteFrom find st cs).1) : p <+: c :: cs := by
        obtain ⟨d, ds, rfl⟩ := List.exists_cons_of_ne_nil hnil
        rw [List.cons_prefix_cons] at hs ⊢
        refine ⟨hs.1, ih ((List.suffix_cons d ds).trans hp) ?_ hs.2⟩
        rintro rfl
        have := hp.length_le
        simp only [List.length_cons] at this
        omega
      rw [substituteFrom] at hs
      cases hf : find st (c :: cs) with
      | none => exact hcopy st (by simpa [hf] using hs)
      | some r =>
        obtain ⟨out, st', rest⟩ := r
        simp only [hf] at hs
        split at hs
        · exact absurd hs (h hf p _ hnil hp hpw)
        · exact hcopy st hs

/-- A pass that writes a word only where it read it makes no new occurrence of the word. -/
theorem infix_of_infix_substituteFrom (hw : w ≠ [])
    (hrest : ∀ {st s out st' rest}, find st s = some (out, st', rest) → rest <:+ s)
    (hstart : ∀ {st s out st' rest}, find st s = some (out, st', rest) →
      ∀ p t, p ≠ [] → p <:+ w → p ≠ w → ¬ p <+: out ++ t)
    (hword : ∀ {st s out st' rest}, find st s = some (out, st', rest) →
      ∀ t, w <:+: out ++ t → w <:+: s ∨ w <:+: t)
    {st : σ} {s : Chars} (hs : w <:+: (substituteFrom find st s).1) : w <:+: s := by
  induction hn : s.length using Nat.strongRecOn generalizing s st with
  | ind n ih =>
    cases s with
    | nil => simp [hw] at hs
    | cons c cs =>
      simp only [List.length_cons] at hn
      have hcopy (st : σ) (hs : w <:+: c :: (substituteFrom find st cs).1) : w <:+: c :: cs := by
        rcases List.infix_cons_iff.1 hs with hs | hs
        · obtain ⟨d, ds, rfl⟩ := List.exists_cons_of_ne_nil hw
          rw [List.cons_prefix_cons] at hs
          have htail := prefix_of_prefix_substituteFrom hstart (List.suffix_cons d ds) (by simp) hs.2
          exact (List.cons_prefix_cons.2 ⟨hs.1, htail⟩).isInfix
        · exact List.infix_cons (ih cs.length (by omega) hs rfl)
      rw [substituteFrom] at hs
      cases hf : find st (c :: cs) with
      | none => exact hcopy st (by simpa [hf] using hs)
      | some r =>
        obtain ⟨out, st', rest⟩ := r
        simp only [hf] at hs
        split at hs
        · rcases hword hf _ hs with hs | hs
          · exact hs
          · exact (ih rest.length (by omega) hs rfl).trans (hrest hf).isInfix
        · exact hcopy st hs

/-- A pass that reads a word as a whole or not at all, and writes it again, loses no occurrence of it. -/
theorem infix_substituteFrom {s : Chars} (hcopy : ∀ st v t, v ≠ [] → v <:+ w → find st (v ++ t) = none)
    (hrest : ∀ {st v out st' rest}, find st v = some (out, st', rest) → rest <:+ v)
    (hcarry : ∀ {st v out st' rest}, v <:+ s → find st v = some (out, st', rest) → w <:+: v →
      w <:+: out ∨ w <:+: rest)
    {st : σ} (hs : w <:+: s) : w <:+: (substituteFrom find st s).1 := by
  induction hn : s.length using Nat.strongRecOn generalizing s st with
  | ind n ih =>
    cases s with
    | nil => simpa using hs
    | cons c cs =>
      simp only [List.length_cons] at hn
      have hcopied (h : w <:+: cs) : w <:+: c :: (substituteFrom find st cs).1 :=
        List.infix_cons (ih cs.length (by omega)
          (fun hv => hcarry (hv.trans (List.suffix_cons c cs))) h rfl)
      rcases List.infix_cons_iff.1 hs with ⟨t, ht⟩ | htail
      · rw [← ht, substituteFrom_append_of_none fun v hv hsuffix => hcopy st v t hv hsuffix]
        exact List.infix_append_left
      · rw [substituteFrom]
        cases hf : find st (c :: cs) with
        | none => exact hcopied htail
        | some r =>
          obtain ⟨out, st', rest⟩ := r
          simp only
          split
          · rcases hcarry (List.suffix_refl _) hf hs with h | h
            · exact List.infix_append_of_infix_left h
            · exact List.infix_append_of_infix_right
                (ih rest.length (by omega) (fun hv => hcarry (hv.trans (hrest hf))) h rfl)
          · exact hcopied htail

end

end ViewBridge.Text
